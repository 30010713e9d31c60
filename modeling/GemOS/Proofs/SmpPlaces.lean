/-
Which CPU runs which process.

# The invariant

A CPU in a process has it as `c->proc`, and the process is RUNNING; behind
the `swtch` back to `scheduler` the CPU still has both the process and its
lock, and the process is not RUNNING any more (`Placed`). The lock is what
goes through `swtch`: the CPU that has picked a process holds its lock until
the process is out of `swtch`.

Two moves make a process RUNNABLE that the scheduler had not put on a CPU
before: `wakeup` and the end of `kfork`. The first looks for SLEEPING; the
second relies on the slot being USED all the time between the two parts of
`kfork` (`Born`).
-/
import GemOS.Proofs.SmpMoves

namespace GemOS

open Function Prog

theorem Proc.yielded_state (x : Proc) : x.yielded.state = .runnable := by
  unfold Proc.yielded
  split <;> rfl

theorem Proc.woken_running {x : Proc} : x.woken.state = .running ↔ x.state = .running := by
  grind [Proc.woken]

theorem Proc.wokenIf_running {x : Proc} {b : Prop} [Decidable b] :
    (if b then x.woken else x).state = .running ↔ x.state = .running := by
  split
  · exact woken_running
  · exact .rfl

namespace Smp

variable {γ : Type}

-- ======== the CPUs

structure Placed (s : Smp γ) : Prop where
  scan : ∀ {c level start i}, s.mode c = .scan level start i →
    s.cproc c = none
  exec : ∀ {c p}, s.mode c = .exec p → s.cproc c = some p
    ∧ (s.proc p).state = .running ∧ (s.ctx p ≠ .run → s.plock p = some c)
  back : ∀ {c p}, s.mode c = .back p → s.cproc c = some p
    ∧ (s.proc p).state ≠ .running ∧ s.plock p = some c
  /-- No process is on two CPUs. -/
  alone : ∀ {c c' p}, s.cproc c = some p → s.cproc c' = some p → c = c'
  /-- A RUNNING process is on a CPU. -/
  somewhere : ∀ {p}, (s.proc p).state = .running → ∃ c, s.mode c = .exec p

variable {s s' : Smp γ} {c : γ} {p q : ProcId} (h : Placed s)

include h

/-- A process whose lock is free is not on its way back. -/
theorem Placed.not_back (hfree : s.plock p = none) (c : γ) : s.mode c ≠ .back p := by
  intro hmode
  have hlock := (h.back hmode).2.2
  rw [hfree] at hlock
  cases hlock

/-- A CPU has only the process it is in or comes back from. -/
theorem Placed.mode_of_cproc (hc : s.cproc c = some p) :
    s.mode c = .exec p ∨ s.mode c = .back p := by
  cases hmode : s.mode c with
  | scan level start i => grind [h.scan hmode]
  | exec q => grind [(h.exec hmode).1]
  | back q => grind [(h.back hmode).1]

/-- Where the CPUs, the locks and the set of RUNNING processes are as
before, and so are the contexts of the latter. -/
theorem Placed.congr (hmode : s'.mode = s.mode)
    (hcproc : s'.cproc = s.cproc) (hplock : s'.plock = s.plock)
    (hstate : ∀ p, (s'.proc p).state = .running ↔ (s.proc p).state = .running)
    (hctx : ∀ p, (s.proc p).state = .running → s'.ctx p = s.ctx p) : Placed s' := by
  cases h
  constructor <;> simp only [hmode, hcproc, hplock] <;> grind

/-- A slot gets a content that is RUNNING if the old one was. -/
theorem Placed.refill {y : Proc} (hmode : s'.mode = s.mode)
    (hcproc : s'.cproc = s.cproc) (hplock : s'.plock = s.plock)
    (hctx : s'.ctx = s.ctx) (hproc : s'.proc = update s.proc q y)
    (hy : y.state = .running ↔ (s.proc q).state = .running) : Placed s' := by
  refine h.congr hmode hcproc hplock (fun p => ?_) fun p _ => congrFun hctx p
  rw [hproc, update_apply]
  split
  · next hp => rw [hp, hy]
  · exact .rfl

theorem Placed.claim (hun : (s.proc p).state = .unused) : Placed (s.claim p) := by
  refine h.congr rfl rfl rfl (fun q => ?_) fun q hq => ?_
  · simp only [Smp.claim, updProc, update_apply]
    grind [Proc.claimed]
  · refine update_of_ne ?_ ..
    rintro rfl
    rw [hun] at hq
    cases hq

/-- A change that concerns CPU `c` and process `p` only, where no other CPU
has the process and the CPU has no other process. -/
theorem Placed.exchange (hmode : ∀ c', c' ≠ c → s'.mode c' = s.mode c')
    (hcproc : ∀ c', c' ≠ c → s'.cproc c' = s.cproc c')
    (hplock : ∀ q, q ≠ p → s'.plock q = s.plock q) (hctx : ∀ q, q ≠ p → s'.ctx q = s.ctx q)
    (hstate : ∀ q, q ≠ p → (s'.proc q).state = (s.proc q).state)
    (hothers : ∀ c', c' ≠ c → s.cproc c' ≠ some p) (hown : ∀ q, s.cproc c = some q → q = p)
    (hnew : (s'.mode c = .exec p ∧ s'.cproc c = some p ∧ (s'.proc p).state = .running
        ∧ (s'.ctx p ≠ .run → s'.plock p = some c))
      ∨ (s'.mode c = .back p ∧ s'.cproc c = some p
        ∧ (s'.proc p).state ≠ .running ∧ s'.plock p = some c)
      ∨ (s'.cproc c = none ∧ (s'.proc p).state ≠ .running
        ∧ ∃ level start i, s'.mode c = .scan level start i)) :
    Placed s' := by
  cases h
  rcases hnew with ⟨hm, hc, hp, hl⟩ | ⟨hm, hc, hp, hl⟩ | ⟨hc, hp, l, st, i, hm⟩
  · constructor <;> grind +splitImp
  · constructor <;> grind +splitImp
  · constructor <;> grind +splitImp

/-- The CPU of a process has no other, and no other CPU has it. -/
theorem Placed.only (hc : s.cproc c = some p) : (∀ c', c' ≠ c → s.cproc c' ≠ some p)
      ∧ ∀ q, s.cproc c = some q → q = p := by
  constructor
  · exact fun c' hne hc' => hne (h.alone hc' hc)
  · exact fun q hq => Option.some.inj (hq.symm.trans hc)

/-- The lock of the process on `c` is taken or given back by it. -/
theorem Placed.setLock (hon : s.mode c = .exec p)
    (hmode : s'.mode = s.mode) (hcproc : s'.cproc = s.cproc) (hproc : s'.proc = s.proc)
    (hplock : ∀ q, q ≠ p → s'.plock q = s.plock q)
    (hctx : ∀ q, q ≠ p → s'.ctx q = s.ctx q) (hrun : s'.ctx p = .run) : Placed s' := by
  obtain ⟨hc, hp, -⟩ := h.exec hon
  obtain ⟨hothers, hown⟩ := h.only hc
  refine h.exchange (fun _ _ => by rw [hmode]) (fun _ _ => by rw [hcproc])
    hplock hctx (fun _ _ => by rw [hproc]) hothers hown (.inl ?_)
  rw [hmode, hcproc, hproc]
  exact ⟨hon, hc, hp, fun hne => absurd hrun hne⟩

variable [DecidableEq γ]

theorem Placed.pick {level : Fin mlfqLevels} {start : ProcId}
    {i : Nat} (hmode : s.mode c = .scan level start i)
    (hfree : s.plock p = none) (hrun : (s.proc p).state = .runnable) :
    Placed (s.pick c level p) := by
  have hothers (c' : γ) : s.cproc c' ≠ some p := by
    intro hc'
    rcases h.mode_of_cproc hc' with hm | hm
    · grind [(h.exec hm).2.1]
    · exact h.not_back hfree c' hm
  refine h.exchange (c := c) (p := p) ?_ ?_ ?_ (fun _ _ => rfl) ?_
    (fun c' _ => hothers c') (by grind [h.scan hmode]) (.inl ?_)
  all_goals
    simp only [Smp.pick, updProc, update_apply]
    grind [Proc.picked]

theorem Placed.switchBack (hmode : s.mode c = .back p) : Placed (s.switchBack c p) := by
  obtain ⟨hc, hrun, -⟩ := h.back hmode
  obtain ⟨hothers, hown⟩ := h.only hc
  refine h.exchange (c := c) (p := p) ?_ ?_ ?_ (fun _ _ => rfl)
    (fun _ _ => rfl) hothers hown (.inr (.inr ?_))
  all_goals
    simp only [Smp.switchBack, update_apply]
    grind

/-- The process on `c` takes its lock, changes its state and goes into
`swtch`. -/
theorem Placed.leave {y : Proc} {k : Ctx} (hon : On s c p)
    (hmode : s'.mode = update s.mode c (.back p))
    (hcproc : s'.cproc = s.cproc) (hproc : s'.proc = update s.proc p y)
    (hplock : s'.plock = update s.plock p (some c))
    (hctx : s'.ctx = update s.ctx p k) (hy : y.state ≠ .running) : Placed s' := by
  have hc := (h.exec hon.mode).1
  obtain ⟨hothers, hown⟩ := h.only hc
  refine h.exchange (c := c) (p := p) ?_ ?_ ?_ ?_ ?_ hothers hown (.inr (.inl ?_))
  all_goals
    simp only [hmode, hcproc, hproc, hplock, hctx, update_apply]
    grind

theorem Placed.rescan {level level' : Fin mlfqLevels}
    {start start' : ProcId} {i i' : Nat} (hmode : s.mode c = .scan level start i) : Placed { s with
      mode := update s.mode c (.scan level' start' i') } := by
  cases h
  constructor
  all_goals
    simp only [update_apply]
    grind

-- ======== the moves

/-- One move; `hready`: the slot that `kfork` makes RUNNABLE is not on a
CPU. -/
theorem Placed.step {op : SmpOp γ} {e : Option (SmpEvent γ)} (hready : ∀ {p np pid},
    s.pc p = .ready np pid → (s.proc np).state ≠ .running) (hm : Move op s e s') : Placed s' := by
  cases hm with
  | stay => exact h
  | scan level start i hmode => exact h.rescan hmode
  | pick p hmode hfree hrun => exact h.pick hmode hfree hrun
  | switchBack hmode => exact h.switchBack hmode
  | resume hmode hctx =>
    exact h.setLock hmode rfl rfl rfl (fun _ hq => update_of_ne hq ..)
      (fun _ hq => update_of_ne hq ..) (update_self ..)
  | tweak hf _ =>
    refine h.refill rfl rfl rfl rfl rfl ?_
    rw [hf.state]
  | wake q chan _ => exact h.refill rfl rfl rfl rfl rfl Proc.wokenIf_running
  | yield hon hpc hfree =>
    refine h.leave hon rfl rfl rfl rfl rfl ?_
    rw [Proc.yielded_state]
    decide
  | sleep chan hon hpc hfree => exact h.leave hon rfl rfl rfl rfl rfl ProcState.noConfusion
  | call _ hon hpc hk => exact h.congr rfl rfl rfl (fun _ => .rfl) fun _ _ => rfl
  | goto hon ha => exact h.congr rfl rfl rfl (fun _ => .rfl) fun _ _ => rfl
  | forkFails hon hpc hfree hun =>
    refine (h.claim hun).refill rfl rfl rfl rfl rfl ?_
    rw [claim_proc_self]
    exact ⟨nofun, nofun⟩
  | forkFinds tf root hon hpc hfree hun => exact (h.claim hun).refill rfl rfl rfl rfl rfl .rfl
  | adopt hon hpc hfree => exact h.refill rfl rfl rfl rfl rfl .rfl
  | ready hon hpc hfree =>
    refine h.refill rfl rfl rfl rfl rfl ?_
    exact ⟨nofun, fun hr => absurd hr (hready hpc)⟩
  | takeWaitLock hon hpc hfree => exact h.congr rfl rfl rfl (fun _ => .rfl) fun _ _ => rfl
  | give hon hpc hpar => exact h.refill rfl rfl rfl rfl rfl .rfl
  | wakeStep chan hon hpc hfree => exact h.refill rfl rfl rfl rfl rfl Proc.wokenIf_running
  | exit hon hpc hfree => exact h.leave hon rfl rfl rfl rfl rfl ProcState.noConfusion
  | waitEnds hon hpc => exact h.congr rfl rfl rfl (fun _ => .rfl) fun _ _ => rfl
  | reap hon hpc hpar hfree hz =>
    refine h.refill rfl rfl rfl rfl rfl ?_
    rw [hz]
    exact ⟨nofun, nofun⟩
  | waitSleep hon hpc hfree => exact h.leave hon rfl rfl rfl rfl rfl ProcState.noConfusion
  | mark hon hpc hfree hpid => exact h.refill rfl rfl rfl rfl rfl Proc.woken_running
  | ppidLock hon hpc hfree =>
    exact h.setLock hon.mode rfl rfl rfl (fun _ hq => update_of_ne hq ..) (fun _ _ => rfl) hon.ctx
  | ppidEnd hon hpc =>
    exact h.setLock hon.mode rfl rfl rfl (fun _ hq => update_of_ne hq ..) (fun _ _ => rfl) hon.ctx

end Smp

end GemOS
