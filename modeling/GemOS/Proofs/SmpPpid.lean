/-
`sys_getppid` under any interleaving.

The call reads `p->parent` without `wait_lock`. What it relies on is its own
`p->lock`, which it holds from before that read to the end: the parent can
exit only after `reparent` has given its children away, and for each of
them `reparent` calls `wakeup(initproc)`, which takes the lock of every
process in turn and so waits for the call to be over. Until then the parent
is no zombie, nobody can reap it, and its pid is the one it had when it was
the parent (`Still`).
-/
import GemOS.Proofs.SmpTree

namespace GemOS

open Function Prog

/-- In `sys_getppid` with `p->lock`. -/
def Pc.asking : Pc → Bool
  | .ppidRead | .ppidPid _ | .ppidEnd _ => true
  | _ => false

namespace Smp

variable {γ : Type}

-- ======== the lock

section lock

variable [DecidableEq γ]

variable {op : SmpOp γ} {s s' : Smp γ} {e : Option (SmpEvent γ)} {c : γ} {p q : ProcId}

/-- Nobody else takes the CPU or the lock from a process that holds its
own lock. -/
theorem Move.keeps_lock (h : Placed s) (hm : Move op s e s') (hon : On s c p)
    (hlock : s.plock p = some c) (he : ∀ v, e ≠ some (.answers p v)) :
    On s' c p ∧ s'.plock p = some c := by
  obtain ⟨hmode, hctx⟩ := hon
  have hrun := (h.exec hmode).2.1
  have halone {c' : γ} (hb : s.mode c' = .back p) : c = c' := h.alone (h.exec hmode).1 (h.back hb).1
  -- another process takes its lock and leaves its CPU
  have hleave {s' : Smp γ} {c' : γ} {q : ProcId} {k : Ctx} (hon' : On s c' q)
      (hfree : s.plock q = none) (hmode' : s'.mode = update s.mode c' (.back q))
      (hctx' : s'.ctx = update s.ctx q k) (hplock : s'.plock = update s.plock q (some c')) :
      On s' c p ∧ s'.plock p = some c := by
    have hmode2 := hon'.mode
    simp only [hplock, update_apply]
    refine ⟨⟨?_, ?_⟩, ?_⟩
    · rw [hmode', update_apply]
      grind
    · rw [hctx', update_apply]
      grind
    · grind
  cases hm with
  | scan | pick | switchBack | resume | forkFails | forkFinds =>
    refine ⟨⟨?_, ?_⟩, ?_⟩
    all_goals
      simp only [Smp.pick, Smp.switchBack, Smp.resume, Smp.claim, freeproc,
        updProc, setPc, update_apply]
      grind
  | yield hon' _ hfree => exact hleave hon' hfree rfl rfl rfl
  | sleep chan hon' _ hfree => exact hleave hon' hfree rfl rfl rfl
  | exit hon' _ hfree => exact hleave hon' hfree rfl rfl rfl
  | waitSleep hon' _ hfree => exact hleave hon' hfree rfl rfl rfl
  | ppidLock | ppidEnd =>
    refine ⟨⟨hmode, hctx⟩, ?_⟩
    simp only [setPc, update_apply]
    grind
  | _ => exact ⟨⟨hmode, hctx⟩, hlock⟩

end lock

-- ======== the places

/-- The events that begin and end a call of `p`. -/
def Bounds (p : ProcId) (e : SmpEvent γ) : Prop :=
  e = .asks p ∨ ∃ v, e = .answers p v

/-- What a move does to the place of a process in `sys_getppid`. -/
inductive AskStep (s s' : Smp γ) (p : ProcId) : Option (SmpEvent γ) → Prop
  /-- Nothing. -/
  | same {e} : s'.pc p = s.pc p → (∀ x ∈ e, ¬ Bounds p x) → AskStep s s' p e
  /-- It is or gets somewhere else. -/
  | other {e} : (s'.pc p).asking = false → s'.pc p ≠ .ppid →
      (∀ x ∈ e, ¬ Bounds p x) → AskStep s s' p e
  | asks : s'.pc p = .ppid → AskStep s s' p (some (.asks p))
  | lock {c} : s.pc p = .ppid → s'.pc p = .ppidRead → On s' c p →
      s'.plock p = some c → AskStep s s' p none
  | reads {q} : s.pc p = .ppidRead → (s.proc p).parent = some q →
      s'.pc p = .ppidPid q → AskStep s s' p (some (.reads p))
  | pid {q} : s.pc p = .ppidPid q → s'.pc p = .ppidEnd (s.proc q).pid →
      AskStep s s' p none
  | answers {v} : s.pc p = .ppidEnd v → s'.pc p = .user →
      AskStep s s' p (some (.answers p v))

section places

variable {op : SmpOp γ} {s s' : Smp γ} {e : Option (SmpEvent γ)} {p r np : ProcId} {a : Pc}

theorem not_bounds {x : SmpEvent γ} (h1 : ∀ q, x ≠ .asks q)
    (h2 : ∀ q v, x ≠ .answers q v) : ∀ y ∈ some x, ¬ Bounds p y := by
  rintro _ ⟨⟩ (hx | ⟨v, hx⟩)
  · exact h1 p hx
  · exact h2 p v hx

/-- A process gets somewhere else. -/
theorem AskStep.of_pc (hpc : s'.pc = update s.pc r a)
    (he : ∀ x ∈ e, ¬ Bounds p x) (ha : a.asking = false ∧ a ≠ .ppid) : AskStep s s' p e := by
  have hp := congrFun hpc p
  rw [update_apply] at hp
  split at hp
  · exact .other (hp ▸ ha.1) (hp ▸ ha.2) he
  · exact .same hp he

/-- A slot is found: its place is a new one. -/
theorem AskStep.of_alloc (hpc : s'.pc = update (update s.pc np .user) r a)
    (he : ∀ x ∈ e, ¬ Bounds p x) (ha : a.asking = false ∧ a ≠ .ppid) : AskStep s s' p e := by
  have hp := congrFun hpc p
  rw [update_apply, update_apply] at hp
  split at hp
  · exact .other (hp ▸ ha.1) (hp ▸ ha.2) he
  · split at hp
    · exact .other (hp ▸ rfl) (hp ▸ nofun) he
    · exact .same hp he

/-- A step of a call of `sys_getppid` by `r`. -/
theorem AskStep.of_own (hpc : s'.pc = update s.pc r a)
    (hown : p = r → s'.pc p = a → AskStep s s' p e)
    (he : p ≠ r → ∀ x ∈ e, ¬ Bounds p x) : AskStep s s' p e := by
  by_cases hp : p = r
  · refine hown hp ?_
    rw [hpc, hp, update_self]
  · refine .same ?_ (he hp)
    rw [hpc, update_of_ne hp]

theorem Begins.ask {k : SmpCall} (h : Begins s r k e a)
    (hpc : s'.pc = update s.pc r a) : AskStep s s' p e := by
  cases h with
  | getppid =>
    refine .of_own hpc (fun hp h => hp ▸ .asks (hp ▸ h)) fun hp => ?_
    rintro _ ⟨⟩ (hx | ⟨v, hx⟩)
    · cases hx
      exact hp rfl
    · cases hx
  | _ => exact .of_pc hpc nofun ⟨rfl, nofun⟩

theorem Goto.ask (h : Goto s r e a) (hpc : s'.pc = update s.pc r a) : AskStep s s' p e := by
  cases h with
  | @ppidRead q hr hpar =>
    refine .of_own hpc (fun hp h => ?_) fun _ => not_bounds nofun nofun
    subst hp
    exact .reads hr hpar h
  | @ppidPid q hr _ =>
    refine .of_own hpc (fun hp h => ?_) fun _ => nofun
    subst hp
    exact .pid hr h
  | _ => exact .of_pc hpc nofun ⟨rfl, nofun⟩

variable [DecidableEq γ]

theorem Move.ask (hm : Move op s e s') (p : ProcId) : AskStep s s' p e := by
  cases hm with
  | pick => exact .same rfl (not_bounds nofun nofun)
  | call _ _ _ hk => exact hk.ask rfl
  | goto _ ha => exact ha.ask rfl
  | forkFails | forkFinds => exact .of_alloc rfl (not_bounds nofun nofun) ⟨rfl, nofun⟩
  | adopt | give | waitSleep => exact .of_pc rfl nofun ⟨rfl, nofun⟩
  | ready | exit | reap | mark => exact .of_pc rfl (not_bounds nofun nofun) ⟨rfl, nofun⟩
  | @takeWaitLock c r a _ ha _ =>
    refine .of_pc rfl nofun ?_
    generalize s.pc r = b at ha
    cases ha <;> exact ⟨rfl, nofun⟩
  | @wakeStep c r q a chan _ ha _ =>
    refine .of_pc rfl nofun ?_
    generalize s.pc r = b at ha
    cases ha <;> exact ⟨rfl, nofun⟩
  | waitEnds _ hw =>
    refine .of_pc rfl ?_ ⟨rfl, nofun⟩
    cases hw with
    | test _ => exact nofun
    | notCopied _ _ _ => exact not_bounds nofun nofun
  | @ppidLock c r hon hr _ =>
    refine .of_own rfl (fun hp h => ?_) fun _ => nofun
    subst hp
    exact .lock hr h ⟨hon.mode, hon.ctx⟩ (update_self ..)
  | @ppidEnd c r v _ hr =>
    refine .of_own rfl (fun hp h => ?_) fun hp => ?_
    · subst hp
      exact .answers hr h
    · rintro _ ⟨⟩ (hx | ⟨v, hx⟩)
      · cases hx
      · cases hx
        exact hp rfl
  | _ => exact .same rfl nofun

end places

variable [DecidableEq γ]

/-- Whoever is in `sys_getppid` behind the first `acquire` is on a CPU and
has its lock. -/
def Locked (s : Smp γ) : Prop :=
  ∀ p, (s.pc p).asking → ∃ c, On s c p ∧ s.plock p = some c

theorem Locked.step {op : SmpOp γ} {s s' : Smp γ} {e : Option (SmpEvent γ)}
    (h : Locked s) (hp : Placed s) (hm : Move op s e s') : Locked s' := by
  intro p hask
  have hkeep (hold : (s.pc p).asking) (he : ∀ v, e ≠ some (.answers p v)) :
      ∃ c, On s' c p ∧ s'.plock p = some c := by
    obtain ⟨c, hon, hlock⟩ := h p hold
    exact ⟨c, hm.keeps_lock hp hon hlock he⟩
  cases hm.ask p with
  | same hpc he =>
    refine hkeep (hpc ▸ hask) fun v hv => ?_
    exact he _ (Option.mem_def.mpr hv) (.inr ⟨v, rfl⟩)
  | other hno _ _ =>
    rw [hno] at hask
    cases hask
  | asks hpc =>
    rw [hpc] at hask
    cases hask
  | lock _ _ hon hlock => exact ⟨_, hon, hlock⟩
  | reads hpc _ _ => exact hkeep (by rw [hpc]; rfl) nofun
  | pid hpc _ => exact hkeep (by rw [hpc]; rfl) nofun
  | answers _ hpc =>
    rw [hpc] at hask
    cases hask

-- ======== the parent

/-- `q` is the parent of `p`, or has just given it to init and waits for
its lock. -/
def Still (s : Smp γ) (p q : ProcId) : Prop :=
  (s.proc p).parent = some q ∨ ∃ st j, s.pc q = .reparentWake st p.val j ∧ j ≤ p.val

section parent

variable {op : SmpOp γ} {s s' : Smp γ} {e : Option (SmpEvent γ)} {p q r : ProcId}

omit [DecidableEq γ] in
theorem Still.live (h : Still s p q) (ht : Tree s) : (s.proc q).state.phase = .live := by
  rcases h with hpar | ⟨st, j, hpc, -⟩
  · exact ht.live hpar
  · exact ht.leaving (by rw [hpc]; rfl)

omit [DecidableEq γ] in
/-- A live process keeps its pid. -/
theorem Shift.pid (h : Shift s s' e) (hq : (s.proc q).state.phase = .live) :
    (s'.proc q).pid = (s.proc q).pid := by
  rcases h with h | h | h
  · exact (h.frame q).pid
  · cases h <;> grind
  · cases h <;> grind

omit [DecidableEq γ] in
/-- A live process gets another parent only from its parent, which then
wakes init. -/
theorem Shift.parent (h : Shift s s' e) (ht : Tree s) (hp : (s.proc p).state.phase = .live)
    (hpar : (s.proc p).parent = some q) : Still s' p q := by
  rcases h with h | h | h
  · exact .inl ((h.frame p).parent.trans hpar)
  · refine .inl (Eq.trans ?_ hpar)
    cases h with
    | adopt _ hr hproc _ _ =>
      have hused := (ht.used_of_adopt hr).1
      grind
    | _ => grind
  · cases h with
    | give _ _ hpp hproc hpc _ =>
      unfold Still
      grind
    | exit _ _ hproc _ _ | reap _ _ hz hproc _ _ =>
      refine .inl ?_
      grind

/-- A `wakeup(initproc)` does not get past a process that holds its own
lock. -/
theorem Move.waits (h : Placed s) (ht : Tree s) (hm : Move op s e s')
    {st : Int} {j : Nat} (hpq : p ≠ q) (hlock : s.plock p ≠ none)
    (hpc : s.pc q = .reparentWake st p.val j) (hj : j ≤ p.val) :
    ∃ j', s'.pc q = .reparentWake st p.val j' ∧ j' ≤ p.val := by
  have hlive := @ht.leaving q
  rw [hpc] at hlive
  -- another process moves
  have hother {r : ProcId} {a : Pc} (hr : ∀ st i j, s.pc r ≠ .reparentWake st i j) : ∃ j',
        update s.pc r a q = .reparentWake st p.val j' ∧ j' ≤ p.val := by
    have hne : q ≠ r := by
      rintro rfl
      exact hr _ _ _ hpc
    exact ⟨j, (update_of_ne hne ..).trans hpc, hj⟩
  cases hm with
  | @goto c r e a hon ha =>
    cases ha with
    | @reparentWakeNext st' i r' c' hr hc hon' =>
      -- the round that is left out is that of the process itself
      have hself := (h.exec hon'.mode).1
      simp only [setPc, update_apply]
      grind
    | reparentWakeEnd hr hend =>
      simp only [setPc, update_apply]
      grind
    | _ => exact hother (by grind)
  | @wakeStep c r r' a chan _ ha hfree =>
    simp only [setPc, wakeOne, updProc, update_apply]
    generalize hr : s.pc r = b at ha
    cases ha <;> grind
  | forkFails _ hr _ hun | forkFinds _ _ _ hr _ hun =>
    simp only [setPc, freeproc, updProc, claim, update_apply]
    grind
  | @takeWaitLock c r a _ ha _ =>
    refine hother fun st i j hr => ?_
    rw [hr] at ha
    cases ha
  | waitEnds _ hw => exact hother (by cases hw <;> grind)
  | call | adopt | ready | give | exit | reap | waitSleep | mark | ppidLock
  | ppidEnd => exact hother (by grind)
  | _ => exact ⟨j, hpc, hj⟩

/-- While `p` holds its lock in `sys_getppid`, the parent it has read does
not get away. -/
theorem Still.step (h : Still s p q) (hp : Placed s) (ht : Tree s)
    (hlocked : Locked s) (hm : Move op s e s') (hpc : s.pc p = .ppidPid r) : Still s' p q := by
  obtain ⟨c, hon, hlock⟩ := hlocked p (by rw [hpc]; rfl)
  rcases h with hpar | ⟨st, j, hq, hj⟩
  · refine (hm.shift hp).parent ht ?_ hpar
    rw [(hp.exec hon.mode).2.1]
    rfl
  · have hpq : p ≠ q := by
      rintro rfl
      rw [hpc] at hq
      cases hq
    have hheld : s.plock p ≠ none := by
      rw [hlock]
      exact nofun
    obtain ⟨j', hq', hj'⟩ := hm.waits hp ht hpq hheld hq hj
    exact .inr ⟨st, j', hq', hj'⟩

end parent

-- ======== the calls

/-- `b` is what has been noted since the last call of `p` began. -/
def InCall (p : ProcId) (n b : Notes (SmpEvent γ) (Smp γ)) : Prop :=
  ∃ a t, n = a ++ (.asks p, t) :: b ∧ ∀ x ∈ b, ¬ Bounds p x.1

omit [DecidableEq γ] in
theorem InCall.append {p : ProcId} {n b : Notes (SmpEvent γ) (Smp γ)}
    (h : InCall p n b) {e : Option (SmpEvent γ)} (he : ∀ x ∈ e, ¬ Bounds p x)
    (s : Smp γ) : InCall p (n ++ (e.map fun e => (e, s)).toList)
      (b ++ (e.map fun e => (e, s)).toList) := by
  obtain ⟨a, t, rfl, hb⟩ := h
  refine ⟨a, t, by rw [List.append_assoc, List.cons_append], fun x hx => ?_⟩
  rcases List.mem_append.mp hx with hx | hx
  · exact hb x hx
  · obtain ⟨y, hy, rfl⟩ := Option.map_eq_some_iff.mp (Option.mem_toList.mp hx)
    exact he y hy

/-- Since the call of `p` began, `p` had a parent with this pid. -/
def Seen (p : ProcId) (v : Int) (n : Notes (SmpEvent γ) (Smp γ)) : Prop :=
  ∃ b t q, InCall p n b ∧ (.reads p, t) ∈ b ∧ (t.proc p).parent = some q ∧ (t.proc q).pid = v

/-- The value of a call was the pid of the parent during the call. -/
def Answered (n : Notes (SmpEvent γ) (Smp γ)) : SmpEvent γ × Smp γ → Prop
  | (.answers p v, _) => Seen p v n
  | _ => True

structure Asked (n : Notes (SmpEvent γ) (Smp γ)) (s : Smp γ) : Prop where
  locked : Locked s
  begun : ∀ {p}, s.pc p = .ppid ∨ s.pc p = .ppidRead → ∃ b, InCall p n b
  read : ∀ {p q}, s.pc p = .ppidPid q → ∃ b t, InCall p n b
    ∧ (.reads p, t) ∈ b ∧ (t.proc p).parent = some q
    ∧ (t.proc q).pid = (s.proc q).pid ∧ Still s p q
  done : ∀ {p v}, s.pc p = .ppidEnd v → Seen p v n
  answered : Conc.Traced Answered n

omit [DecidableEq γ] in
theorem asked_boot (tf root : Nat) : Asked [] (boot tf root : Smp γ) := by
  refine ⟨nofun, ?_, nofun, nofun, .nil⟩
  rintro p (hp | hp)
  · cases hp
  · cases hp

section steps

variable {op : SmpOp γ} {n : Notes (SmpEvent γ) (Smp γ)} {s s' : Smp γ}
  {e : Option (SmpEvent γ)} {p : ProcId}

theorem Asked.begun_step (h : Asked n s) (hm : Move op s e s')
    (hpc : s'.pc p = .ppid ∨ s'.pc p = .ppidRead) :
    ∃ b, InCall p (n ++ (e.map fun e => (e, s)).toList) b := by
  have hno {a : Pc} (ha : s'.pc p = a) (hne : a ≠ .ppid ∧ a ≠ .ppidRead) : False := by
    rw [ha] at hpc
    exact hpc.elim hne.1 hne.2
  cases hm.ask p with
  | same hsame he =>
    obtain ⟨b, hcall⟩ := h.begun (hsame ▸ hpc)
    exact ⟨_, hcall.append he s⟩
  | other hask hne _ =>
    rcases hpc with hpc | hpc
    · exact absurd hpc hne
    · rw [hpc] at hask
      cases hask
  | asks _ =>
    refine ⟨[], n, s, rfl, fun x hx => ?_⟩
    cases hx
  | lock hold _ _ _ =>
    obtain ⟨b, hcall⟩ := h.begun (.inl hold)
    exact ⟨_, hcall.append (e := none) nofun s⟩
  | reads _ _ hnew | pid _ hnew | answers _ hnew => exact (hno hnew ⟨nofun, nofun⟩).elim

theorem Asked.read_step {q : ProcId} (h : Asked n s) (hp : Placed s)
    (ht : Tree s) (hm : Move op s e s') (hpc : s'.pc p = .ppidPid q) :
    ∃ b t, InCall p (n ++ (e.map fun e => (e, s)).toList) b
      ∧ (.reads p, t) ∈ b ∧ (t.proc p).parent = some q
      ∧ (t.proc q).pid = (s'.proc q).pid ∧ Still s' p q := by
  have hs := hm.shift hp
  cases hm.ask p with
  | same hsame he =>
    rw [hsame] at hpc
    obtain ⟨b, t, hcall, hmem, hpar, hpid, hstill⟩ := h.read hpc
    refine ⟨_, t, hcall.append he s, List.mem_append_left _ hmem, hpar, ?_,
      hstill.step hp ht h.locked hm hpc⟩
    rw [hs.pid (hstill.live ht), hpid]
  | other hask _ _ =>
    rw [hpc] at hask
    cases hask
  | asks hnew | lock _ hnew _ _ | pid _ hnew | answers _ hnew =>
    rw [hnew] at hpc
    cases hpc
  | reads hold hpar hnew =>
    rw [hnew] at hpc
    cases hpc
    obtain ⟨b, hcall⟩ := h.begun (.inr hold)
    obtain ⟨c, hon, -⟩ := h.locked p (by rw [hold]; rfl)
    have hlive : (s.proc p).state.phase = .live := by
      rw [(hp.exec hon.mode).2.1]
      rfl
    refine ⟨_, s, hcall.append ?_ s, ?_, hpar, ?_, hs.parent ht hlive hpar⟩
    · exact not_bounds nofun nofun
    · exact List.mem_append_right _ (List.mem_singleton_self _)
    · exact (hs.pid (ht.live hpar)).symm

omit [DecidableEq γ] in
theorem Seen.append {v : Int} (h : Seen p v n) (he : ∀ x ∈ e, ¬ Bounds p x) :
    Seen p v (n ++ (e.map fun e => (e, s)).toList) := by
  obtain ⟨b, t, q, hcall, hmem, hpar, hpid⟩ := h
  exact ⟨_, t, q, hcall.append he s, List.mem_append_left _ hmem, hpar, hpid⟩

theorem Asked.done_step (h : Asked n s) (hm : Move op s e s') {v : Int}
    (hpc : s'.pc p = .ppidEnd v) : Seen p v (n ++ (e.map fun e => (e, s)).toList) := by
  cases hm.ask p with
  | same hsame he => exact (h.done (hsame ▸ hpc)).append he
  | other hask _ _ =>
    rw [hpc] at hask
    cases hask
  | asks hnew | lock _ hnew _ _ | reads _ _ hnew | answers _ hnew =>
    rw [hnew] at hpc
    cases hpc
  | pid hold hnew =>
    rw [hnew] at hpc
    cases hpc
    obtain ⟨b, t, hcall, hmem, hpar, hpid, -⟩ := h.read hold
    exact Seen.append ⟨b, t, _, hcall, hmem, hpar, hpid⟩ nofun

theorem Asked.step (h : Asked n s) (hp : Placed s) (ht : Tree s) (hm : Move op s e s') :
    Asked (n ++ (e.map fun e => (e, s)).toList) s' := by
  refine ⟨h.locked.step hp hm, h.begun_step hm, h.read_step hp ht hm, h.done_step hm, ?_⟩
  cases e with
  | none =>
    rw [Option.map_none, Option.toList_none, List.append_nil]
    exact h.answered
  | some x =>
    refine h.answered.snoc ?_
    cases x with
    | answers p v =>
      cases hm.ask p with
      | same _ he => exact absurd (.inr ⟨v, rfl⟩) (he _ rfl)
      | other _ _ he => exact absurd (.inr ⟨v, rfl⟩) (he _ rfl)
      | answers hold _ => exact h.done hold
    | _ => trivial

end steps

/-- The value that `sys_getppid` returns is the pid of a process that was
the caller's parent at a moment of the call. -/
theorem getppid_not_stale {n : Notes (SmpEvent γ) (Smp γ)} {s : Smp γ}
    (hr : Runs (fun _ => True) n s) {p : ProcId} {v : Int} {t : Smp γ}
    {a d : Notes (SmpEvent γ) (Smp γ)} (hret : n = a ++ (.answers p v, t) :: d) :
    ∃ a' t0 b t1 q, a = a' ++ (.asks p, t0) :: b
      ∧ (∀ x ∈ b, x.1 ≠ .asks p ∧ ∀ v', x.1 ≠ .answers p v')
      ∧ (.reads p, t1) ∈ b ∧ (t1.proc p).parent = some q
      ∧ (t1.proc q).pid = v := by
  have hinv := (Runs.invariant asked_boot (fun _ _ _ _ _ _ hI hp ht hm => hI.step hp ht hm) hr).2
  obtain ⟨b, t1, q, ⟨a', t0, ha, hb⟩, hmem, hpar, hpid⟩ := hinv.answered a _ d hret
  refine ⟨a', t0, b, t1, q, ha, fun x hx => ⟨fun he => ?_, fun v' he => ?_⟩, hmem, hpar, hpid⟩
  · exact hb x hx (.inl he)
  · exact hb x hx (.inr ⟨v', he⟩)

/-- The child of the first process asks for its parent. -/
theorem getppid_not_stale_child : ∃ (n : Notes (SmpEvent Bool) (Smp Bool)) (s : Smp Bool),
      Runs (fun _ => True) n s ∧ ∃ t q, (.reads 1, t) ∈ n
        ∧ (t.proc 1).parent = some q ∧ (t.proc q).pid = 1 := by
  have hrun : (play (fun _ _ _ => true) prog (forkAndRun
      ++ [.call true .getppid, .step true, .step true, .step true, .step true])
      [] (boot 1 2)).map (fun r => r.1.getLast?.map Prod.fst) = some (some (.answers 1 1)) := by
    decide +kernel
  obtain ⟨⟨n, s⟩, hplay, hlast⟩ := Option.map_eq_some_iff.mp hrun
  obtain ⟨⟨x, t⟩, hlast, rfl⟩ := Option.map_eq_some_iff.mp hlast
  obtain ⟨a, ha⟩ := List.getLast?_eq_some_iff.mp hlast
  have hr : Runs (fun _ => True) n s :=
    Course.play (fun _ _ _ _ => trivial) (.init ⟨1, 2, rfl⟩) hplay
  obtain ⟨a', t0, b, t1, q, hab, -, hmem, hpar, hpid⟩ := getppid_not_stale hr ha
  refine ⟨n, s, hr, t1, q, ?_, hpar, hpid⟩
  change n = a ++ _ at ha
  rw [ha, hab]
  exact List.mem_append_left _ (List.mem_append_right _ (List.mem_cons_of_mem _ hmem))

end Smp

end GemOS
