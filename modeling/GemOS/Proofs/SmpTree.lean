/-
The history of the process tree under any interleaving.

`Life` follows one slot through the events: a `kfork` puts a child into
it, an exit makes it a zombie with a status, a successful `kwait` takes it
out again. When a parent exits, init takes its place. `Lives` says that the
slot agrees with its history, and `Legal` which events may follow which
history.
-/
import GemOS.Proofs.SmpTable
import GemOS.Lib.Conc

namespace GemOS

open Prog

namespace Smp

variable {γ : Type}

-- ======== the history

/-- What the events say about a slot. -/
inductive Life
  | absent
  | child (pid : Int) (parent : ProcId)
  | gone (pid status : Int) (parent : ProcId)
  deriving DecidableEq

/-- Process `p` exits; its children go to `init`. -/
def Life.orphaned (init p : ProcId) : Life → Life
  | .absent => .absent
  | .child pid par => .child pid (if par = p then init else par)
  | .gone pid st par => .gone pid st (if par = p then init else par)

/-- The slot's own process exits. -/
def Life.ended (pid st : Int) : Life → Life
  | .child _ par => .gone pid st par
  | l => l

def Life.next (init q : ProcId) (l : Life) : SmpEvent γ → Life
  | .forked p np pid => if np = q then .child pid p else l
  | .exited p pid st => if p = q then l.ended pid st else l.orphaned init p
  | .reaped _ pp _ _ => if pp = q then .absent else l
  | _ => l

def Life.after (init q : ProcId) (l : Life) : Option (SmpEvent γ) → Life
  | none => l
  | some e => l.next init q e

theorem Life.after_forked (init q p np : ProcId) (pid : Int) (l : Life) :
    l.after init q (some (.forked p np pid : SmpEvent γ))
      = if np = q then .child pid p else l := rfl

theorem Life.after_exited (init q p : ProcId) (pid st : Int) (l : Life) :
    l.after init q (some (.exited p pid st : SmpEvent γ))
      = if p = q then l.ended pid st else l.orphaned init p := rfl

theorem Life.after_reaped (init q p pp : ProcId) (pid st : Int) (l : Life) :
    l.after init q (some (.reaped p pp pid st : SmpEvent γ)) = if pp = q then .absent else l := rfl

variable {e : Option (SmpEvent γ)} {init q : ProcId}
  {n a b : Notes (SmpEvent γ) (Smp γ)} {s s' : Smp γ}

theorem Life.after_silent (init q : ProcId) (l : Life) (h : ∀ x ∈ e, x.silent) :
    l.after init q e = l := by
  cases e with
  | none => rfl
  | some e =>
    have he := h e rfl
    cases e with
    | forked p np pid => cases he
    | exited p pid st => cases he
    | reaped p pp pid st => cases he
    | notCopied p pp => cases he
    | _ => rfl

/-- Slot `q` after the events of the notes. -/
def life (init q : ProcId) (n : Notes (SmpEvent γ) (Smp γ)) : Life :=
  n.foldl (fun l e => l.next init q e.1) .absent

theorem life_append (init q : ProcId) (n : Notes (SmpEvent γ) (Smp γ))
    (e : Option (SmpEvent γ)) (s : Smp γ) :
    life init q (n ++ (e.map fun e => (e, s)).toList) = (life init q n).after init q e := by
  unfold life
  rw [List.foldl_append]
  cases e with
  | none => rfl
  | some e => rfl

/-- Which events may follow which history: a slot is filled when it is
free, its process exits once, and only the parent gets it, with its pid and
its status. -/
def Legal (init : ProcId) (n : Notes (SmpEvent γ) (Smp γ)) : SmpEvent γ × Smp γ → Prop
  | (.forked _ np _, _) => life init np n = .absent
  | (.exited p pid _, _) => ∃ par, life init p n = .child pid par
  | (.reaped p pp pid st, _) => life init pp n = .gone pid st p
  | (.notCopied p pp, _) => ∃ pid st, life init pp n = .gone pid st p
  | _ => True

theorem legal_silent (h : ∀ x ∈ e, x.silent) : ∀ x ∈ e, Legal init n (x, s) := by
  intro x hx
  have hsil := h x hx
  cases x with
  | forked p np pid => cases hsil
  | exited p pid st => cases hsil
  | reaped p pp pid st => cases hsil
  | notCopied p pp => cases hsil
  | _ => trivial

/-- `par` is the parent of `q`, or about to give it to init. -/
def Fathers (s : Smp γ) (par q : ProcId) : Prop :=
  (s.proc q).parent = some par ∨ (s.proc q).parent = some s.initproc ∧ (s.pc par).leaving

/-- The history agrees with the slot. -/
inductive Lives (s : Smp γ) (q : ProcId) : Life → Prop
  | absent : (s.proc q).state.phase = .unused
      ∨ (s.proc q).state.phase = .used ∨ q = s.initproc → Lives s q .absent
  | child {pid par} : (s.proc q).state.phase = .live → q ≠ s.initproc →
      (s.proc q).pid = pid → par ≠ q → Fathers s par q →
      Lives s q (.child pid par)
  | gone {pid st par} : (s.proc q).state.phase = .zombie → q ≠ s.initproc →
      (s.proc q).pid = pid → (s.proc q).xstate = st → par ≠ q →
      Fathers s par q → Lives s q (.gone pid st par)

section slot

variable {s s' : Smp γ} {p q par : ProcId} {l : Life} {pid st : Int}

attribute [local grind] Lives
attribute [local grind =] Fathers Life.orphaned Life.ended

/-- A slot at the same place. -/
theorem Lives.same (h : Lives s q l) (hq : (s.proc q).Same (s'.proc q))
    (hinit : s'.initproc = s.initproc)
    (hpc : ∀ r, (s.pc r).leaving → (s'.pc r).leaving) : Lives s' q l := by
  obtain ⟨hphase, hparent, hpid, hxstate⟩ := hq
  cases l <;> grind

/-- While one process is in `kwait` nobody exits: its children are its
own. -/
theorem Fathers.of_wait (ht : Tree s) (hf : Fathers s par q)
    (hpar : (s.proc q).parent = some p) (hholds : (s.pc p).holds)
    (hstay : ¬ (s.pc p).leaving) : par = p := by
  have hp := ht.holds hholds
  rcases hf with hf | ⟨-, hleave⟩
  · exact Option.some.inj (hf.symm.trans hpar)
  · have hpar := ht.holds (Pc.holds_of_leaving hleave)
    grind

theorem Lives.of_zombie (h : Lives s q l) (ht : Tree s) (hz : (s.proc q).state = .zombie) :
    ∃ par, l = .gone (s.proc q).pid (s.proc q).xstate par ∧ Fathers s par q := by
  have hinit := ht.init
  cases l <;> grind

/-- A slot without a process has no history. -/
theorem Lives.of_free (h : Lives s q l) (hq : (s.proc q).state.phase = .unused
      ∨ (s.proc q).state.phase = .used) : l = .absent := by
  cases l <;> grind

/-- A child is given to init. -/
theorem Lives.given (h : Lives s q l) (hpar : (s.proc q).parent = some p)
    (hinitp : p ≠ s.initproc) (hinit : s'.initproc = s.initproc)
    (hat : s'.proc q = { s.proc q with parent := some s.initproc })
    (hleave : (s'.pc p).leaving) : Lives s' q l := by
  cases l <;> grind

/-- A process exits, seen from another slot: where it was the parent, init
is now, and nobody else is leaving. -/
theorem Lives.orphaned (h : Lives s q l) (ht : Tree s)
    (hq : s'.proc q = s.proc q) (hinit : s'.initproc = s.initproc)
    (hholds : s.waitLock = some p) (hpast : (s.proc q).parent ≠ some p) :
    Lives s' q (l.orphaned s.initproc p) := by
  have hleave (r : ProcId) (hr : (s.pc r).leaving) : r = p :=
    Option.some.inj ((ht.holds (Pc.holds_of_leaving hr)).symm.trans hholds)
  cases l <;> grind

/-- A process exits, seen from its own slot: who is leaving holds
`wait_lock`, and is not its own parent. -/
theorem Lives.ended (h : Lives s p l) (ht : Tree s)
    (hrun : (s.proc p).state = .running) (hne : p ≠ s.initproc)
    (hinit : s'.initproc = s.initproc) (hholds : s.waitLock = some p)
    (hat : s'.proc p = { s.proc p with xstate := st, state := .zombie }) :
    (∃ par, l = .child (s.proc p).pid par) ∧ Lives s' p (l.ended (s.proc p).pid st) := by
  have hleave (r : ProcId) (hr : (s.pc r).leaving) : r = p :=
    Option.some.inj ((ht.holds (Pc.holds_of_leaving hr)).symm.trans hholds)
  cases l <;> grind

/-- Who is leaving is not moved by others. -/
theorem leaving_update {a : Pc} (hpc : ∀ r, s'.pc r = if r = p then a else s.pc r)
    (ha : (s.pc p).leaving → a.leaving) (r : ProcId)
    (hr : (s.pc r).leaving) : (s'.pc r).leaving := by
  rw [hpc]
  split
  · next h => exact ha (h ▸ hr)
  · exact hr

end slot

/-- One move: its event is legal, and the histories agree afterwards. -/
def Follows (n : Notes (SmpEvent γ) (Smp γ)) (s s' : Smp γ) (e : Option (SmpEvent γ)) : Prop :=
  (∀ x ∈ e, Legal s.initproc n (x, s))
    ∧ ∀ q, Lives s' q ((life s.initproc q n).after s.initproc q e)

section moves

variable {p np : ProcId} {y : Proc} (ht : Tree s) (hinit : s'.initproc = s.initproc)
  (h : ∀ q, Lives s q (life s.initproc q n))

theorem Follows.silent (hx : ∀ x ∈ e, x.silent) (h : ∀ q, Lives s' q (life s.initproc q n)) :
    Follows n s s' e := by
  refine ⟨legal_silent hx, fun q => ?_⟩
  rw [Life.after_silent _ _ _ hx]
  exact h q

include hinit h in
/-- A slot that is not touched. -/
theorem lives_off (hproc : ∀ r, s'.proc r = if r = np then y else s.proc r) (hq : q ≠ np)
    (hl : ∀ r, (s.pc r).leaving → (s'.pc r).leaving) : Lives s' q (life s.initproc q n) := by
  refine (h q).same ?_ hinit hl
  rw [hproc, if_neg hq]
  exact .rfl

include hinit h in
/-- One slot is touched, and nothing is said about it. -/
theorem Follows.touch (hx : ∀ x ∈ e, x.silent)
    (hproc : ∀ r, s'.proc r = if r = np then y else s.proc r)
    (hl : ∀ r, (s.pc r).leaving → (s'.pc r).leaving)
    (hnp : Lives s' np (life s.initproc np n)) : Follows n s s' e := by
  refine .silent hx fun q => ?_
  by_cases hq : q = np
  · exact hq ▸ hnp
  · exact lives_off hinit h hproc hq hl

theorem silent_claimed : ∀ x ∈ some (SmpEvent.claimed p np : SmpEvent γ), x.silent := by
  rintro _ ⟨⟩
  rfl

include ht hinit h

theorem Follows.calm (hs : Calm s s' e) : Follows n s s' e := by
  cases hs with
  | rest hx hf hpc _ => exact .silent hx fun q => (h q).same (hf q) hinit (by grind)
  | walk hx hf _ ha hpc _ =>
    exact .silent hx fun q => (h q).same (hf q) hinit (leaving_update hpc fun hr => ha.leaving ▸ hr)
  | @take p a hf _ ha _ hpc _ =>
    refine .silent nofun fun q => (h q).same (hf q) hinit ?_
    generalize hold : s.pc p = b at ha
    cases ha <;> grind
  | @release e p a hf hholds hstay ha he hpc _ =>
    have hall (q : ProcId) : Lives s' q (life s.initproc q n) :=
      (h q).same (hf q) hinit (leaving_update hpc fun hr => absurd hr hstay)
    cases e with
    | none => exact .silent nofun hall
    | some x =>
      obtain ⟨pp, rfl, hpar, hz⟩ := he x rfl
      refine ⟨?_, hall⟩
      rintro _ ⟨⟩
      obtain ⟨par, hlife, hfa⟩ := (h pp).of_zombie ht hz
      cases hfa.of_wait ht hpar hholds hstay
      exact ⟨_, _, hlife⟩

/-- The child is in the tree. -/
theorem Follows.ready {pid : Int} (hrun : (s.proc p).state = .running) (hp : s.pc p = .ready np pid)
    (hproc : ∀ r, s'.proc r = if r = np then { s.proc np with state := .runnable } else s.proc r)
    (hpc : ∀ r, s'.pc r = if r = p then .user else s.pc r) :
    Follows n s s' (some (.forked p np pid)) := by
  obtain ⟨hused, hpid⟩ := ht.used_of_ready hp
  have hne := (ht.not_live (by rw [hused]; decide)).1
  constructor
  · rintro _ ⟨⟩
    exact (h np).of_free (.inr hused)
  · intro q
    rw [Life.after_forked]
    by_cases hq : np = q
    · subst hq
      rw [if_pos rfl]
      have hpnp : p ≠ np := by
        rintro rfl
        rw [hrun] at hused
        cases hused
      have hat := hproc np
      rw [if_pos rfl] at hat
      refine .child ?_ (hinit ▸ hne) ?_ hpnp (.inl ?_)
      · rw [hat]
        rfl
      · rw [hat]
        exact hpid
      · rw [hat]
        exact ht.ready hp
    · rw [if_neg hq]
      exact lives_off hinit h hproc (Ne.symm hq) (by grind)

theorem Follows.forking (hs : Forking s s' e) : Follows n s s' e := by
  cases hs with
  | @fail p np mem i hp hun hproc hpc _ =>
    have hleave := @ht.leaving np
    refine .touch hinit h silent_claimed hproc (by grind) ?_
    rw [(h np).of_free (.inl (by rw [hun]; rfl))]
    refine .absent (.inl ?_)
    rw [hproc, if_pos rfl]
    rfl
  | @find p np mem i y hp hun hy hproc hpc _ =>
    have hleave := @ht.leaving np
    refine .touch hinit h silent_claimed hproc (by grind) ?_
    rw [(h np).of_free (.inl (by rw [hun]; rfl))]
    refine .absent (.inr (.inl ?_))
    rw [hproc, if_pos rfl, hy.phase]
    rfl
  | @adopt p np pid _ hp hproc hpc _ =>
    have hused := (ht.used_of_adopt hp).1
    refine .touch hinit h nofun hproc (by grind) ?_
    rw [(h np).of_free (.inr hused)]
    refine .absent (.inr (.inl ?_))
    rw [hproc, if_pos rfl]
    exact hused
  | ready hrun hp hproc hpc _ => exact .ready ht hinit h hrun hp hproc hpc

/-- A process is a zombie, and its children are init's. -/
theorem Follows.exit {st : Int} (hrun : (s.proc p).state = .running) (hp : s.pc p = .exitEnd st)
    (hproc : ∀ r, s'.proc r = if r = p then { s.proc p with xstate := st, state := .zombie }
      else s.proc r) : Follows n s s' (some (.exited p (s.proc p).pid st)) := by
  have hinitp : p ≠ s.initproc := ht.ne_init (by rw [hp]; rfl)
  have hholds : s.waitLock = some p := ht.holds (by rw [hp]; rfl)
  have hat := hproc p
  rw [if_pos rfl] at hat
  obtain ⟨hchild, hzombie⟩ := (h p).ended ht hrun hinitp hinit hholds hat
  constructor
  · rintro _ ⟨⟩
    exact hchild
  · intro q
    rw [Life.after_exited]
    by_cases hq : p = q
    · subst hq
      rw [if_pos rfl]
      exact hzombie
    · rw [if_neg hq]
      refine (h q).orphaned ht ?_ hinit hholds ?_
      · rw [hproc, if_neg (Ne.symm hq)]
      · exact ht.past (by rw [hp]; exact q.isLt)

theorem Follows.parting (hs : Parting s s' e) : Follows n s s' e := by
  cases hs with
  | @give p st pp _ hp hpar hproc hpc _ =>
    refine .touch hinit h nofun hproc (by grind) ?_
    refine (h pp).given hpar (ht.ne_init (by rw [hp]; rfl)) hinit ?_ ?_
    · rw [hproc, if_pos rfl]
    · rw [hpc, if_pos rfl]
      rfl
  | exit hrun hp hproc hpc _ => exact .exit ht hinit h hrun hp hproc
  | @reap p addr copied hk pp hp hpar hz hproc hpc _ =>
    obtain ⟨par, hlife, hfa⟩ := (h pp).of_zombie ht hz
    have hpp : par = p := hfa.of_wait ht hpar (by rw [hp]; rfl) (by rw [hp]; exact nofun)
    subst hpp
    constructor
    · rintro _ ⟨⟩
      exact hlife
    · intro q
      rw [Life.after_reaped]
      by_cases hq : pp = q
      · subst hq
        rw [if_pos rfl]
        refine .absent (.inl ?_)
        rw [hproc, if_pos rfl]
        rfl
      · rw [if_neg hq]
        exact lives_off hinit h hproc (Ne.symm hq) (by grind)

theorem follows_shift (hs : Shift s s' e) : Follows n s s' e := by
  cases hs with
  | calm hs => exact .calm ht hinit h hs
  | forking hs => exact .forking ht hinit h hs
  | parting hs => exact .parting ht hinit h hs

end moves

-- ======== runs

/-- The events and the histories. -/
structure Kin (n : Notes (SmpEvent γ) (Smp γ)) (s : Smp γ) : Prop where
  legal : Conc.Traced (Legal s.initproc) n
  lives : ∀ q, Lives s q (life s.initproc q n)

theorem kin_boot (tf root : Nat) : Kin [] (boot tf root : Smp γ) := by
  refine ⟨.nil, fun q => .absent ?_⟩
  by_cases hq : q = 0
  · exact .inr (.inr hq)
  · refine .inl ?_
    rw [boot_proc_of_ne tf root hq]
    rfl

theorem Kin.shift (h : Kin n s) (ht : Tree s) (hinit : s'.initproc = s.initproc)
    (hs : Shift s s' e) : Kin (n ++ (e.map fun e => (e, s)).toList) s' := by
  obtain ⟨hlegal, hlives⟩ := follows_shift ht hinit h.lives hs
  constructor
  · rw [hinit]
    cases e with
    | none =>
      rw [Option.map_none, Option.toList_none, List.append_nil]
      exact h.legal
    | some e => exact h.legal.snoc (hlegal e rfl)
  · intro q
    rw [hinit, life_append]
    exact hlives q

/-- As long as no `kfork` fills it, a slot without a process stays so. -/
theorem life_absent (ha : life init q a = .absent)
    (hb : ∀ p pid t, (SmpEvent.forked p q pid, t) ∉ b) : life init q (a ++ b) = .absent := by
  induction b generalizing a with
  | nil => rwa [List.append_nil]
  | cons x b ih =>
    rw [← List.singleton_append, ← List.append_assoc]
    refine ih ?_ fun p pid t ht => hb p pid t (List.mem_cons_of_mem _ ht)
    obtain ⟨e, t⟩ := x
    have happ := life_append init q a (some e) t
    rw [ha] at happ
    refine happ.trans ?_
    cases e with
    | forked p np pid =>
      rw [Life.after_forked, if_neg]
      rintro rfl
      exact hb p pid t (List.mem_cons_self ..)
    | exited p pid st =>
      rw [Life.after_exited]
      split
      · rfl
      · rfl
    | reaped p pp pid st =>
      rw [Life.after_reaped]
      split
      · rfl
      · rfl
    | _ => rfl

/-- Between two reapings of a slot there is a `kfork` into it. -/
theorem forked_between {d : Notes (SmpEvent γ) (Smp γ)} {x x' : ProcId}
    {pid pid' st st' : Int} {t t' : Smp γ}
    (h : Conc.Traced (Legal init) (a ++ (.reaped x q pid st, t) :: b
      ++ (.reaped x' q pid' st', t') :: d)) :
    ∃ p pid'' t'', (.forked p q pid'', t'') ∈ b := by
  by_contra hnone
  push Not at hnone
  have hsecond := h _ _ _ rfl
  change life init q (a ++ (.reaped x q pid st, t) :: b) = _ at hsecond
  have hfirst : life init q (a ++ [(.reaped x q pid st, t)]) = .absent := by
    have happ := life_append init q a (some (.reaped x q pid st)) t
    rw [Life.after_reaped, if_pos rfl] at happ
    exact happ
  have habs := life_absent hfirst hnone
  rw [List.append_assoc, List.singleton_append, hsecond] at habs
  cases habs

variable [DecidableEq γ]

theorem runs_kin {cond : SmpOp γ → Prop} (hr : Runs cond n s) : Tree s ∧ Kin n s := by
  obtain ⟨⟨-, ht⟩, hk⟩ := Runs.invariant kin_boot
    (fun _ _ _ _ _ _ hk hp ht hm => hk.shift ht hm.initproc (hm.shift hp)) hr
  exact ⟨ht, hk⟩

/-- A `kwait` that looks at a zombie child whose lock is free, and that can
copy the status out, returns it. -/
theorem step_reaps {c : γ} {p : ProcId} {addr : Nat} {copied hk : Bool}
    (hon : On s c p) (hpc : s.pc p = .waitScan addr copied hk q.val)
    (hpar : (s.proc q).parent = some p) (hfree : s.plock q = none)
    (hz : (s.proc q).state = .zombie) (hcopy : addr = 0 ∨ copied) :
    ∃ s', prog (.step c) s = .ok ((), s', [(.reaped p q (s.proc q).pid (s.proc q).xstate, s)]) := by
  have hno : ¬ (addr ≠ 0 ∧ ¬ copied) := by
    rintro ⟨hne, hnc⟩
    exact hcopy.elim hne hnc
  have hround : waitRound p addr copied hk q.val s = .ok ((),
      { s.freeproc q with waitLock := none }.setPc p .user,
      [(.reaped p q (s.proc q).pid (s.proc q).xstate, s)]) := by
    unfold waitRound eachSlot whenFree
    rw [dif_pos q.isLt]
    dsimp only
    rw [get_bind_run, if_pos hpar, get_bind_run, if_pos hfree, if_pos hz, if_neg hno]
    rfl
  have hstep : prog (.step c) s = waitRound p addr copied hk q.val s := by
    show cpuStep c s = _
    unfold cpuStep
    rw [get_bind_run, hon.mode]
    dsimp only
    rw [if_pos hon.ctx, hpc]
    rfl
  exact ⟨_, hstep.trans hround⟩

/-- The process tree and reaping. A process whose `kfork` is over has a
parent that is neither UNUSED nor ZOMBIE, init apart; an UNUSED slot has
none. The events of a run are legal: a child that exits is returned, with
its pid and its status, to its parent or, after the exit of that, to init.
Between two reapings of a slot there is a `kfork` into it. A zombie stays
one, with its pid and its status, until it is reaped, also when the status
could not be copied out, and the next `kwait` of its parent that looks at
it reaps it. -/
theorem process_tree {n : Notes (SmpEvent γ) (Smp γ)} {s : Smp γ} (hr : Runs (fun _ => True) n s) :
    (∀ q, q ≠ s.initproc → (s.proc q).state ≠ .unused →
      (s.proc q).state ≠ .used → ∃ r, (s.proc q).parent = some r
        ∧ (s.proc r).state ≠ .unused ∧ (s.proc r).state ≠ .zombie)
      ∧ (∀ q, (s.proc q).state = .unused → (s.proc q).parent = none)
      ∧ Conc.Traced (Legal s.initproc) n
      ∧ (∀ q, Lives s q (life s.initproc q n))
      ∧ (∀ a b d x x' q pid pid' st st' t t', n = a ++ (.reaped x q pid st, t) :: b
          ++ (.reaped x' q pid' st', t') :: d →
        ∃ p pid'' t'', (.forked p q pid'', t'') ∈ b)
      ∧ ∀ c p q addr copied hk pid st par, life s.initproc q n = .gone pid st par → On s c p →
        s.pc p = .waitScan addr copied hk q.val → (s.proc q).parent = some p → s.plock q = none →
        addr = 0 ∨ copied → par = p
          ∧ ∃ s', prog (.step c) s = .ok ((), s', [(.reaped p q pid st, s)]) := by
  obtain ⟨ht, hk⟩ := runs_kin hr
  refine ⟨fun q hne hun hus => ?_, fun q hun => ?_, hk.legal, hk.lives, ?_, ?_⟩
  · have hphase : (s.proc q).state.phase = .live ∨ (s.proc q).state.phase = .zombie := by
      cases hst : (s.proc q).state with
      | unused => exact absurd hst hun
      | used => exact absurd hst hus
      | zombie => exact .inr rfl
      | _ => exact .inl rfl
    obtain ⟨r, hr⟩ := Option.ne_none_iff_exists'.mp (ht.parented hphase hne)
    have hlive := ht.live hr
    refine ⟨r, hr, fun hst => ?_, fun hst => ?_⟩
    · rw [hst] at hlive
      cases hlive
    · rw [hst] at hlive
      cases hlive
  · exact ht.unused (by rw [hun]; rfl)
  · rintro a b d x x' q pid pid' st st' t t' rfl
    exact forked_between hk.legal
  · intro c p q addr copied havekids pid st par hlife hon hpc hpar hfree hcopy
    have hlq := hk.lives q
    rw [hlife] at hlq
    cases hlq with
    | gone hph _ hpid hxs _ hfa =>
      subst hpid hxs
      have hz : (s.proc q).state = .zombie := by
        cases hst : (s.proc q).state with
        | zombie => rfl
        | _ =>
          rw [hst] at hph
          cases hph
      refine ⟨hfa.of_wait ht hpar ?_ ?_, ?_⟩
      · rw [hpc]
        rfl
      · rw [hpc]
        exact nofun
      · exact step_reaps hon hpc hpar hfree hz hcopy

/-- The child exits with 7 on one CPU, while init waits for it on another
one; the first `kwait` cannot copy the status out. -/
def exitAndWait : List (SmpOp Bool) :=
  forkAndRun ++ .call true (.exit 7) :: List.replicate 133 (.step true)
    ++ [.call false (.wait 8 false), .step false, .step false, .step false,
      .call false (.wait 8 true), .step false, .step false]

/-- Init looks at the zombie again. -/
theorem process_tree_again : ∃ (n : Notes (SmpEvent Bool) (Smp Bool)) (s s' : Smp Bool),
      Runs (fun _ => True) n s ∧ (∃ t, (.notCopied 0 1, t) ∈ n)
        ∧ prog (.step false) s = .ok ((), s', [(.reaped 0 1 2 7, s)]) := by
  have hboot : Runs (fun _ => True) [] (boot 1 2 : Smp Bool) := .init ⟨1, 2, rfl⟩
  obtain ⟨n, s, hr, hnot, hlife, hmode, hctx, hpc, hpar, hfree⟩ := hboot.played (P := fun n s =>
    .notCopied 0 1 ∈ n.map Prod.fst ∧ life s.initproc 1 n = .gone 2 7 0 ∧ s.mode false = .exec 0
      ∧ s.ctx 0 = .run ∧ s.pc 0 = .waitScan 8 true false 1 ∧ (s.proc 1).parent = some 0
      ∧ s.plock 1 = none) (fun _ _ _ => true)
    (fun _ _ _ _ => trivial) exitAndWait (by decide +kernel)
  obtain ⟨-, -, -, -, -, hreap⟩ := process_tree hr
  obtain ⟨-, s', hstep⟩ := hreap false 0 1 8 true false 2 7 0 hlife
    ⟨hmode, hctx⟩ hpc hpar hfree (.inr rfl)
  obtain ⟨⟨_, t⟩, ht, rfl⟩ := List.mem_map.mp hnot
  exact ⟨n, s, s', hr, ⟨t, ht⟩, hstep⟩

end Smp

end GemOS
