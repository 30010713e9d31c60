/-
Free process slots.

`allocproc` does not reset every field of a slot, so that a new process
starts with what `freeproc` has left. `freeproc` clears the fields, and no
move touches an UNUSED slot afterwards, with one exception: `kkill` looks
for the pid in all slots, and that of an UNUSED one is 0. Without a
`kill(0)` the slots stay clean (`slots_clean`); with one, the call reports
success, and the next process is born killed (`killed_before_birth`).
-/
import GemOS.Proofs.SmpTree

namespace GemOS

open Function Prog

variable {x : Proc}

theorem Proc.woken_unused (h : x.woken.state = .unused) : x.state = .unused := by
  grind [Proc.woken]

theorem Proc.wokenIf_unused {b : Prop} [Decidable b]
    (h : (if b then x.woken else x).state = .unused) : (if b then x.woken else x) = x := by
  split
  · next hb =>
    rw [if_pos hb] at h
    have hun := woken_unused h
    unfold Proc.woken
    rw [if_neg (by rw [hun]; decide)]
  · rfl

namespace Smp

variable {γ : Type} [DecidableEq γ]

/-- Nothing is left of the last process of the slot. -/
structure Clean (s : Smp γ) (q : ProcId) : Prop where
  killed : (s.proc q).killed = false
  parent : (s.proc q).parent = none
  chan : s.chan q = none
  sz : (s.proc q).sz = 0
  pagetable : (s.proc q).pagetable = none
  trapframe : (s.proc q).trapframe = none
  pid : (s.proc q).pid = 0

/-- The free slots are clean, and no call of `kkill` is about pid 0. -/
structure Tidy (s : Smp γ) : Prop where
  clean : ∀ {q}, (s.proc q).state = .unused → Clean s q
  kill : ∀ {p pid i}, s.pc p = .kill pid i → pid ≠ 0

/-- No process asks to kill pid 0. -/
def notZero : SmpOp γ → Bool
  | .call _ (.kill pid) => pid != 0
  | _ => true

variable {q : ProcId} {s s' : Smp γ} {e : Option (SmpEvent γ)} {op : SmpOp γ}

omit [DecidableEq γ] in
/-- A slot that is as before. -/
theorem Clean.congr (h : Clean s q) (hproc : s'.proc q = s.proc q)
    (hchan : s'.chan q = s.chan q) : Clean s' q := by
  cases h
  constructor <;> grind

omit [DecidableEq γ] in
/-- What `freeproc` leaves. -/
theorem Clean.freed {x : Proc} (hproc : s.proc q = x.freed)
    (hchan : s.chan q = none) : Clean s q := by
  constructor <;> grind [Proc.freed, Proc.cleared]

theorem Tidy.clean_step (h : Tidy s) (hp : Placed s) (ht : Tree s)
    (hm : Move op s e s') (hq : (s'.proc q).state = .unused) : Clean s' q := by
  -- the slot and its channel are as before
  have hsame {s' : Smp γ} (hproc : s'.proc = s.proc) (hchan : s'.chan = s.chan)
      (hq : (s'.proc q).state = .unused) : Clean s' q := by
    rw [hproc] at hq
    exact (h.clean hq).congr (congrFun hproc q) (congrFun hchan q)
  -- another slot changes, or this one is left as it was if it is free
  have hslot {s' : Smp γ} {r : ProcId} {y : Proc} (hproc : s'.proc = update s.proc r y)
      (hchan : r ≠ q → s'.chan q = s.chan q)
      (hy : r = q → y.state = .unused → y = s.proc r ∧ s'.chan r = s.chan r)
      (hq : (s'.proc q).state = .unused) : Clean s' q := by
    rw [hproc] at hq
    by_cases hr : q = r
    · subst hr
      rw [update_self] at hq
      obtain ⟨hy, hc⟩ := hy rfl hq
      refine (h.clean (hy ▸ hq)).congr ?_ hc
      rw [hproc, update_self, hy]
    · rw [update_of_ne hr] at hq
      refine (h.clean hq).congr ?_ (hchan (Ne.symm hr))
      rw [hproc, update_of_ne hr]
  cases hm with
  | stay => exact h.clean hq
  | scan | switchBack | call | goto | takeWaitLock | waitEnds | ppidLock
  | ppidEnd => exact hsame rfl rfl hq
  | pick | ready | exit => exact hslot rfl (fun _ => rfl) nofun hq
  | sleep | waitSleep => exact hslot rfl (fun hr => update_of_ne (Ne.symm hr) ..) nofun hq
  | wake | wakeStep =>
    exact hslot rfl (fun _ => rfl) (fun _ hun => ⟨Proc.wokenIf_unused hun, rfl⟩) hq
  | @resume c p hmode _ =>
    have hrun := (hp.exec hmode).2.1
    refine (h.clean hq).congr rfl ?_
    simp only [Smp.resume] at hq ⊢
    grind [update_apply]
  | @tweak r f hf hon =>
    refine hslot rfl (fun _ => rfl) (fun _ hun => ⟨?_, rfl⟩) hq
    rw [hf.state] at hun
    rcases hon with ⟨c, hon⟩ | heq
    · rw [(hp.exec hon.mode).2.1] at hun
      cases hun
    · exact heq hun
  | yield =>
    refine hslot rfl (fun _ => rfl) (fun _ hun => ?_) hq
    rw [Proc.yielded_state] at hun
    cases hun
  | @forkFails c p mem i np _ _ _ _ =>
    by_cases hr : q = np
    · subst hr
      exact .freed (update_self ..) (update_self ..)
    · have hproc : (((s.claim np).freeproc np).setPc p .user).proc q = s.proc q :=
        (update_of_ne hr ..).trans (update_of_ne hr ..)
      rw [hproc] at hq
      exact (h.clean hq).congr hproc (update_of_ne hr ..)
  | @forkFinds c p mem i np tf root _ _ _ _ =>
    refine hslot (update_idem ..) (fun _ => rfl) (fun _ hun => ?_) hq
    change ((s.claim np).proc np).state = _ at hun
    rw [claim_proc_self] at hun
    cases hun
  | @adopt c p np pid _ hpc _ =>
    refine hslot rfl (fun _ => rfl) (fun _ hun => ?_) hq
    have hused := (ht.used_of_adopt hpc).1
    change (s.proc np).state = _ at hun
    rw [hun] at hused
    cases hused
  | give _ _ hpar =>
    refine hslot rfl (fun _ => rfl) (fun _ hun => ?_) hq
    rw [(h.clean hun).parent] at hpar
    cases hpar
  | @reap c p addr copied hk pp _ _ _ _ _ =>
    by_cases hr : q = pp
    · subst hr
      exact .freed (update_self ..) (update_self ..)
    · have hproc := update_of_ne hr (s.proc pp).freed s.proc
      change (update s.proc pp _ q).state = _ at hq
      rw [hproc] at hq
      exact (h.clean hq).congr hproc (update_of_ne hr ..)
  | mark _ hpc _ hpid =>
    refine hslot rfl (fun _ => rfl) (fun _ hun => ?_) hq
    -- the pid of a free slot is 0
    have hzero := (h.clean (Proc.woken_unused hun)).pid
    exact absurd (hpid.symm.trans hzero) (h.kill hpc)

theorem Tidy.kill_step (h : Tidy s) (hop : notZero op) (hm : Move op s e s')
    {p : ProcId} {pid : Int} {i : Nat} (hpc : s'.pc p = .kill pid i) : pid ≠ 0 := by
  have hkill := @h.kill
  cases hm with
  | call hcall _ _ hk =>
    subst hcall
    simp only [setPc, update_apply] at hpc
    cases hk <;> grind [notZero]
  | goto _ ha =>
    simp only [setPc, update_apply] at hpc
    cases ha <;> grind
  | @takeWaitLock c r a _ ha _ =>
    simp only [setPc, update_apply] at hpc
    generalize s.pc r = b at ha
    cases ha <;> grind
  | @wakeStep c r q a chan _ ha _ =>
    simp only [setPc, wakeOne, updProc, update_apply] at hpc
    generalize s.pc r = b at ha
    cases ha <;> grind
  | stay | scan | pick | switchBack | resume | tweak | wake | yield | sleep => exact hkill hpc
  | _ =>
    simp only [setPc, freeproc, updProc, claim, update_apply] at hpc
    grind

omit [DecidableEq γ] in
theorem tidy_boot (tf root : Nat) : Tidy (boot tf root : Smp γ) := by
  refine ⟨fun {q} hq => ?_, nofun⟩
  by_cases h0 : q = 0
  · subst h0
    cases hq
  · refine .freed (x := Proc.initial) ?_ rfl
    rw [boot_proc_of_ne tf root h0]
    rfl

/-- The events that concern free slots: who gets a slot gets a clean one,
and who is killed is there. -/
def Fresh : SmpEvent γ × Smp γ → Prop
  | (.claimed _ np, t) => (t.proc np).killed = false
  | (.marked _ q _, t) => (t.proc q).state ≠ .unused
  | _ => True

theorem Tidy.fresh {x : SmpEvent γ} (h : Tidy s) (hm : Move op s (some x) s') : Fresh (x, s) := by
  cases x with
  | claimed p np =>
    cases hm with
    | call _ _ _ hk => cases hk
    | goto _ ha => cases ha
    | forkFails _ _ _ hun => exact (h.clean hun).killed
    | forkFinds tf root _ _ _ hun => exact (h.clean hun).killed
    | waitEnds _ hw => cases hw
  | marked p q pid =>
    cases hm with
    | call _ _ _ hk => cases hk
    | goto _ ha => cases ha
    | waitEnds _ hw => cases hw
    | mark _ hpc _ hpid => exact fun hun => h.kill hpc (hpid.symm.trans (h.clean hun).pid)
  | _ => trivial

/-- As long as nobody asks to kill pid 0, every UNUSED slot is clean, a new
process starts without the mark of `kkill`, and what `kkill` marks is a
process. -/
theorem slots_clean {n : Notes (SmpEvent γ) (Smp γ)} {s : Smp γ}
    (hr : Runs (fun op => notZero op) n s) :
    (∀ q, (s.proc q).state = .unused → (s.proc q).killed = false
      ∧ (s.proc q).parent = none ∧ s.chan q = none ∧ (s.proc q).sz = 0
      ∧ (s.proc q).pagetable = none ∧ (s.proc q).trapframe = none)
      ∧ (∀ p np t, (.claimed p np, t) ∈ n → (t.proc np).killed = false)
      ∧ ∀ p q pid t, (.marked p q pid, t) ∈ n → (t.proc q).state ≠ .unused := by
  have hinv := (Runs.invariant (I := fun n s => Tidy s ∧ ∀ x ∈ n, Fresh x)
    (fun tf root => ⟨tidy_boot tf root, nofun⟩) ?_ hr).2
  · obtain ⟨htidy, hfresh⟩ := hinv
    refine ⟨fun q hq => ?_, fun p np t ht => hfresh _ ht, fun p q pid t ht => hfresh _ ht⟩
    have hc := htidy.clean hq
    exact ⟨hc.killed, hc.parent, hc.chan, hc.sz, hc.pagetable, hc.trapframe⟩
  · rintro op n s e s' hop ⟨htidy, hfresh⟩ hp ht hm
    refine ⟨⟨htidy.clean_step hp ht hm, htidy.kill_step hop hm⟩, fun x hx => ?_⟩
    rcases List.mem_append.mp hx with hx | hx
    · exact hfresh x hx
    · obtain ⟨y, rfl, rfl⟩ := Option.map_eq_some_iff.mp (Option.mem_toList.mp hx)
      exact htidy.fresh hm

/-- The child exits and is reaped. -/
theorem slots_clean_reaped : ∃ (n : Notes (SmpEvent Bool) (Smp Bool)) (s : Smp Bool),
      Runs (fun op => notZero op) n s
      ∧ .reaped 0 1 2 7 ∈ n.map Prod.fst ∧ (s.proc 1).killed = false
      ∧ (s.proc 1).parent = none ∧ (s.proc 1).trapframe = none := by
  have hboot : Runs (fun op => notZero op) [] (boot 1 2 : Smp Bool) := .init ⟨1, 2, rfl⟩
  obtain ⟨n, s, hr, hreaped, hun⟩ := hboot.played
    (P := fun n s => .reaped 0 1 2 7 ∈ n.map Prod.fst ∧ (s.proc 1).state = .unused)
    (fun op _ _ => notZero op) (fun _ _ _ h => h) (exitAndWait ++ [.step false]) (by decide +kernel)
  obtain ⟨hkilled, hpar, -, -, -, htf⟩ := (slots_clean hr).1 1 hun
  exact ⟨n, s, hr, hreaped, hkilled, hpar, htf⟩

/-- The first process calls `kill(0)` and then forks. -/
def killAndFork : List (SmpOp Unit) :=
  [.step (), .step (), .call () (.kill 0), .step (), .step (),
    .call () (.fork (.ok 3 4)), .step (), .step (), .step (), .step ()]

/-- The call marks a slot that has no process, and the child that gets it
starts killed. -/
theorem killed_before_birth : ∃ (n : Notes (SmpEvent Unit) (Smp Unit)) (s : Smp Unit),
      Runs (fun _ => True) n s
      ∧ (∃ t, (.marked 0 1 0, t) ∈ n ∧ (t.proc 1).state = .unused)
      ∧ (∃ t, (.claimed 0 1, t) ∈ n ∧ (t.proc 1).state = .unused ∧ (t.proc 1).killed = true)
      ∧ (s.proc 1).state = .runnable ∧ (s.proc 1).killed = true := by
  have hboot : Runs (fun _ => True) [] (boot 1 2 : Smp Unit) := .init ⟨1, 2, rfl⟩
  obtain ⟨n, s, hr, ⟨⟨x, t⟩, hx, rfl, hun⟩, ⟨⟨y, u⟩, hy, rfl, hun', hkilled⟩, hend⟩ :=
    hboot.played (P := fun n s => (∃ x ∈ n, x.1 = .marked 0 1 0 ∧ (x.2.proc 1).state = .unused)
      ∧ (∃ x ∈ n, x.1 = .claimed 0 1 ∧ (x.2.proc 1).state = .unused ∧ (x.2.proc 1).killed = true)
      ∧ (s.proc 1).state = .runnable ∧ (s.proc 1).killed = true) (fun _ _ _ => true)
      (fun _ _ _ _ => trivial) killAndFork (by decide +kernel)
  exact ⟨n, s, hr, ⟨t, hx, hun⟩, ⟨u, hy, hun', hkilled⟩, hend⟩

end Smp

end GemOS
