/-
Process ids name one process each.

`allocpid` never hands out a number twice, so a search for a pid stops at
the only slot that has it.
-/
import GemOS.Kernel.SysProc
import GemOS.Proofs.SmpTree

namespace GemOS

open Prog

namespace Smp

variable {γ : Type} {s s' : Smp γ} {e : Option (SmpEvent γ)} {p q r : ProcId}

structure Pids (s : Smp γ) : Prop where
  below : ∀ {q}, (s.proc q).state ≠ .unused → (s.proc q).pid < s.nextpid
  unique : ∀ {q r}, (s.proc q).state ≠ .unused → (s.proc r).state ≠ .unused →
    (s.proc q).pid = (s.proc r).pid → q = r

theorem phase_unused {x : ProcState} : x.phase = .unused ↔ x = .unused := by
  cases x <;> decide

/-- A slot in use was in use before, with the same pid, or has just been
claimed. -/
theorem Shift.named (h : Shift s s' e) (ht : Tree s) (hq : (s'.proc q).state ≠ .unused) :
    ((s.proc q).state ≠ .unused ∧ (s'.proc q).pid = (s.proc q).pid)
      ∨ ∃ p, e = some (.claimed p q) ∧ (s'.proc q).pid = s.nextpid := by
  cases h with
  | calm h =>
    have hsame := h.frame q
    rw [Ne, ← phase_unused, hsame.phase, phase_unused] at hq
    exact .inl ⟨hq, hsame.pid⟩
  | forking h =>
    cases h with
    | @find p np _ _ _ _ _ hy hproc _ _ =>
      by_cases hnp : q = np
      · subst hnp
        exact .inr ⟨p, rfl, by rw [hproc, if_pos rfl]; exact hy.pid⟩
      · rw [hproc, if_neg hnp] at hq ⊢
        exact .inl ⟨hq, rfl⟩
    | ready _ hp _ _ _ => grind [ht.used_of_ready hp]
    | _ => grind [Proc.freed, Proc.cleared]
  | parting h => cases h <;> grind [Proc.freed, Proc.cleared]

theorem pids_boot (tf root : Nat) : Pids (boot tf root : Smp γ) := by
  have hzero {q : ProcId} (hq : ((boot tf root : Smp γ).proc q).state ≠ .unused) : q = 0 := by
    by_contra h0
    rw [boot_proc_of_ne tf root h0] at hq
    exact hq rfl
  refine ⟨fun hq => ?_, fun hq hr _ => (hzero hq).trans (hzero hr).symm⟩
  rw [hzero hq]
  exact Int.lt_succ 1

variable [DecidableEq γ] {op : SmpOp γ} {n : Notes (SmpEvent γ) (Smp γ)}

theorem Move.nextpid_le (hm : Move op s e s') : s.nextpid ≤ s'.nextpid := by
  cases hm with
  | forkFails | forkFinds => exact Int.le_add_one (Int.le_refl _)
  | _ => exact Int.le_refl _

/-- A pid is used up with the slot it is for. -/
theorem Move.nextpid_lt (hm : Move op s (some (.claimed p q)) s') : s.nextpid < s'.nextpid := by
  cases hm with
  | forkFails | forkFinds => exact Int.lt_succ _
  | call _ _ _ hk => cases hk
  | goto _ ha => cases ha
  | waitEnds _ hw => cases hw

/-- Every move keeps the pids apart. -/
theorem Pids.move (h : Pids s) (hp : Placed s) (ht : Tree s) (hm : Move op s e s') : Pids s' := by
  have hle := hm.nextpid_le
  have hnamed {q : ProcId} := (hm.shift hp).named ht (q := q)
  refine ⟨fun {q} hq => ?_, fun {q r} hq hr heq => ?_⟩
  · rcases hnamed hq with ⟨hold, hpid⟩ | ⟨p, rfl, hpid⟩
    · have := h.below hold
      omega
    · have := hm.nextpid_lt
      omega
  · rcases hnamed hq with ⟨hq', hpid⟩ | ⟨p, rfl, hpid⟩ <;>
      rcases hnamed hr with ⟨hr', hpid'⟩ | ⟨p', he, hpid'⟩
    · exact h.unique hq' hr' (by omega)
    · have := h.below hq'
      omega
    · have := h.below hr'
      omega
    · cases he
      rfl

/-- A search that fits one slot finds it. -/
theorem firstSlot_eq {proc : ProcId → Proc} {found : Proc → Bool} (hq : found (proc q) = true)
    (huniq : ∀ r, found (proc r) = true → r = q) : firstSlot proc found = some q := by
  cases hfirst : firstSlot proc found with
  | none => exact absurd hq (List.find?_eq_none.mp hfirst q (List.mem_finRange q))
  | some r => rw [huniq r (List.find?_some (p := fun p => found (proc p)) hfirst)]

/-- No two slots in use have the same pid, and the queries answer about
the one process, or child, with the pid they are given. `nextpid` counts
without a bound: the source's `int` does the same in a run that makes
fewer than `2^31 - 2` processes. -/
theorem pids_unique (hr : Runs (fun _ => True) n s) (hq : (s.proc q).state ≠ .unused) :
    (∀ r, (s.proc r).state ≠ .unused → (s.proc r).pid = (s.proc q).pid → r = q)
      ∧ sysGetmlfqinfo s.proc (s.proc q).pid = some (s.proc q).mlfqInfo
      ∧ sysGetvmstats s.proc (s.proc q).pid = some (s.proc q).vmStats
      ∧ ∀ p, (s.proc q).parent = some p →
        sysGetchildsyscount s.proc p (s.proc q).pid = (s.proc q).syscallCount := by
  obtain ⟨⟨-, ht⟩, h⟩ := Runs.invariant (I := fun _ s => Pids s) pids_boot
    (fun _ _ _ _ _ _ h hp ht hm => h.move hp ht hm) hr
  have huniq (r : ProcId) (hr : (s.proc r).state ≠ .unused) :
      (s.proc r).pid = (s.proc q).pid → r = q := h.unique hr hq
  have hfirst : firstSlot s.proc (Proc.hasPid (s.proc q).pid) = some q := by
    refine firstSlot_eq (by simpa [Proc.hasPid] using hq) fun r hr => ?_
    rw [Proc.hasPid, Bool.and_eq_true, beq_iff_eq, bne_iff_ne] at hr
    exact huniq r hr.2 hr.1
  refine ⟨huniq, ?_, ?_, fun p hp => ?_⟩
  · rw [sysGetmlfqinfo, hfirst, Option.map_some]
  · rw [sysGetvmstats, hfirst, Option.map_some]
  · rw [sysGetchildsyscount, firstSlot_eq (q := q) (by simp [hp]) fun r hr => ?_]
    rw [Bool.and_eq_true, beq_iff_eq, beq_iff_eq] at hr
    -- a slot with a parent is in use
    refine huniq r (fun hun => ?_) hr.1
    rw [ht.unused (phase_unused.mpr hun)] at hr
    cases hr.2

theorem pids_unique_child : ∃ (n : Notes (SmpEvent Bool) (Smp Bool)) (s : Smp Bool),
      Runs (fun _ => True) n s ∧ sysGetmlfqinfo s.proc 2 = some (s.proc 1).mlfqInfo
      ∧ sysGetchildsyscount s.proc 0 2 = (s.proc 1).syscallCount := by
  have hboot : Runs (fun _ => True) [] (boot 1 2 : Smp Bool) := .init ⟨1, 2, rfl⟩
  obtain ⟨n, s, hr, hst, hpid, hpar⟩ := hboot.played (P := fun _ s =>
    (s.proc 1).state ≠ .unused ∧ (s.proc 1).pid = 2 ∧ (s.proc 1).parent = some 0)
    (fun _ _ _ => true) (fun _ _ _ _ => trivial) forkAndRun (by decide +kernel)
  obtain ⟨-, hinfo, -, hcount⟩ := pids_unique hr hst
  rw [hpid] at hinfo hcount
  exact ⟨n, s, hr, hinfo, hcount 0 hpar⟩

end Smp

end GemOS
