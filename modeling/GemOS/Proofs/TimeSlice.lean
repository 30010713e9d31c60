/-
How long a process can hold the one CPU.

# The bound

A slice ends when `current_ticks` reaches the quantum of the level, so
without a boost it is charged at most 16 ticks. A boost in the middle
moves the process to level 0 and starts `current_ticks` again: two more
ticks, and no second boost can come within them, since boosts are 128
ticks apart. `InSlice` is that argument as an invariant: either the slice
has been charged what `current_ticks` says, or a boost hit it and the
clock shows how long ago.
-/
import Mathlib.Data.Int.Order.Basic
import GemOS.Kernel.Sched

namespace GemOS

open Function

-- ======== one process

/-- The ticks charged to a process at all levels. -/
def Proc.sumTicks (q : Proc) : Int :=
  q.ticks 0 + q.ticks 1 + q.ticks 2 + q.ticks 3

/-- What the bounds depend on. -/
def Proc.slice (q : Proc) : Fin mlfqLevels × Int × (Fin mlfqLevels → Int) × Int :=
  (q.level, q.currentTicks, q.ticks, q.timesScheduled)

/-- `current_ticks` is within the quantum of the level. -/
def Proc.InQuantum (q : Proc) : Prop :=
  0 ≤ q.currentTicks ∧ q.currentTicks ≤ mlfqQuantum q.level

theorem mlfqQuantum_bounds (level : Fin mlfqLevels) :
    2 ≤ mlfqQuantum level ∧ mlfqQuantum level ≤ 16 := by
  revert level
  decide

variable {q q' : Proc} {base : Int} {m : Machine} {p : ProcId}

theorem Proc.slice_eq (h : q'.slice = q.slice) :
    q'.level = q.level ∧ q'.currentTicks = q.currentTicks
      ∧ q'.sumTicks = q.sumTicks ∧ q'.timesScheduled = q.timesScheduled := by
  unfold Proc.slice at h
  simp only [Prod.mk.injEq] at h
  obtain ⟨h1, h2, h3, h4⟩ := h
  exact ⟨h1, h2, by unfold Proc.sumTicks; rw [h3], h4⟩

theorem Proc.InQuantum.congr (hq : q.InQuantum) (h : q'.slice = q.slice) : q'.InQuantum := by
  obtain ⟨hl, hc, -⟩ := Proc.slice_eq h
  unfold Proc.InQuantum
  rw [hl, hc]
  exact hq

theorem Proc.charged_sumTicks (hrun : q.state = .running) :
    q.charged.sumTicks = q.sumTicks + 1 := by
  unfold Proc.charged Proc.sumTicks
  rw [if_pos hrun]
  match q.level with
  | 0 => simp; omega
  | 1 => simp; omega
  | 2 => simp; omega
  | 3 => simp; omega

-- ======== what a step can do

section effects

variable (m : Machine) (p : ProcId)

theorem Machine.upd_self (f : Proc → Proc) : (m.upd p f).proc p = f (m.proc p) := update_self ..

theorem Machine.upd_of_ne {p' : ProcId} (f : Proc → Proc) (h : p ≠ p') :
    (m.upd p' f).proc p = m.proc p := update_of_ne h ..

/-- Changing a field that no bound depends on. -/
theorem Machine.upd_slice (p' : ProcId) {f : Proc → Proc} (hf : ∀ q, (f q).slice = q.slice) :
    ((m.upd p' f).proc p).slice = (m.proc p).slice := by
  by_cases h : p = p'
  · rw [← h, upd_self, hf]
  · rw [upd_of_ne m p f h]

theorem Machine.wakeup_slice (chan : Chan) : ((m.wakeup chan).proc p).slice = (m.proc p).slice := by
  unfold Machine.wakeup
  dsimp only
  split <;> rfl

/-- `wakeup` does not touch the running process. -/
theorem Machine.wakeup_running (chan : Chan) (h : m.running = some p) :
    (m.wakeup chan).proc p = m.proc p := if_neg fun hc => hc.1 h

theorem Machine.exit_slice (p' : ProcId) : ((m.exit p').proc p).slice = (m.proc p).slice := by
  unfold Machine.exit
  dsimp only
  split
  · exact m.upd_slice p p' fun _ => rfl
  · rw [← m.wakeup_slice p]
    exact Machine.upd_slice _ p p' fun _ => rfl

theorem Machine.kkill_slice (pid : Int) : ((m.kkill pid).proc p).slice = (m.proc p).slice := by
  unfold Machine.kkill
  split
  · rfl
  · exact m.upd_slice p _ fun _ => rfl

/-- The boost falls on this tick. -/
def Machine.boosts : Prop := (m.ticks + 1) % 2 ^ 32 % boostInterval = 0

instance : Decidable m.boosts := inferInstanceAs (Decidable (_ = _))

/-- The running process after `clockintr`. -/
def Machine.accounted : Proc :=
  if m.boosts then (m.proc p).charged.boosted else (m.proc p).charged

theorem Machine.tick_running (h : m.running = some p) :
    m.tick.proc p = (m.proc p).charged ∧ m.tick.running = some p := by
  have hc : m.charge = m.upd p Proc.charged := by
    simp only [Machine.charge, h]
  unfold Machine.tick
  rw [hc]
  refine ⟨?_, h⟩
  rw [Machine.wakeup_running _ p .ticks (by exact h)]
  exact m.upd_self p _

/-- The clock charges the running process. -/
theorem Machine.clockintr_running (h : m.running = some p) :
    m.clockintr.proc p = m.accounted p ∧ m.clockintr.running = some p
      ∧ m.clockintr.ticks = (m.ticks + 1) % 2 ^ 32 := by
  obtain ⟨hp, hr⟩ := m.tick_running p h
  have hc : m.clockintr = if m.boosts then m.tick.mlfqBoost else m.tick := rfl
  rw [hc]
  unfold Machine.accounted
  by_cases hb : m.boosts
  · rw [if_pos hb, if_pos hb]
    exact ⟨congrArg Proc.boosted hp, hr, rfl⟩
  · rw [if_neg hb, if_neg hb]
    exact ⟨hp, hr, rfl⟩

/-- A step while `p` runs. -/
theorem Machine.step_running (o : SchedOp) (h : m.running = some p)
    (hst : (m.proc p).state = .running) :
    (((m.step o).proc p).slice = (m.proc p).slice ∧ (m.step o).ticks = m.ticks
      ∧ ((m.step o).running = some p ∧ ((m.step o).proc p).state = .running
          ∧ ((m.step o).proc p).timeSliceExpired = (m.proc p).timeSliceExpired
        ∨ (m.step o).running = none))
    ∨ ((m.step o).ticks = (m.ticks + 1) % 2 ^ 32
      ∧ ((m.step o).running = some p ∧ (m.step o).proc p = m.accounted p
          ∧ (m.accounted p).timeSliceExpired = false
        ∨ (m.step o).running = none ∧ (((m.step o).proc p).slice = (m.accounted p).slice
            ∨ (m.step o).proc p = (m.accounted p).yielded))) := by
  cases o with
  | schedule =>
    have hm : m.step .schedule = m := by
      simp only [Machine.step, Machine.schedule, h]
    rw [hm]
    exact .inl ⟨rfl, rfl, .inl ⟨h, hst, rfl⟩⟩
  | timer fromUser =>
    obtain ⟨hp, hr, ht⟩ := m.clockintr_running p h
    refine .inr ?_
    simp only [Machine.step, Machine.timer, hr]
    split
    · refine ⟨?_, .inr ⟨rfl, .inl ?_⟩⟩
      · rw [← ht]
        unfold Machine.exit
        dsimp only
        split <;> rfl
      · rw [← hp]
        exact Machine.exit_slice _ p p
    · split
      · refine ⟨ht, .inr ⟨rfl, .inr ?_⟩⟩
        rw [← hp]
        exact Machine.upd_self _ p _
      · grind
  | syscall =>
    simp only [Machine.step, h]
    refine .inl ⟨m.upd_slice p p (f := Proc.called) fun _ => rfl, rfl, .inl ⟨h, ?_, ?_⟩⟩
    · rw [m.upd_self]
      exact hst
    · rw [m.upd_self]
      rfl
  | sleep chan =>
    simp only [Machine.step, h]
    exact .inl ⟨m.upd_slice p p (f := fun q => { q with state := .sleeping })
      fun _ => rfl, rfl, .inr rfl⟩
  | wakeup chan =>
    have hp := m.wakeup_running p chan h
    refine .inl ⟨m.wakeup_slice p chan, rfl, .inl ⟨h, ?_, ?_⟩⟩
    · exact hp ▸ hst
    · exact congrArg Proc.timeSliceExpired hp
  | kill pid =>
    refine .inl ⟨m.kkill_slice p pid, ?_, .inl ?_⟩
    · simp only [Machine.step, Machine.kkill]
      split <;> rfl
    · simp only [Machine.step, Machine.kkill]
      split
      · exact ⟨h, hst, rfl⟩
      · rename_i p' _
        refine ⟨h, ?_⟩
        by_cases hpp : p = p'
        · rw [← hpp, m.upd_self]
          exact ⟨by simp [hst], rfl⟩
        · rw [m.upd_of_ne p _ hpp]
          exact ⟨hst, rfl⟩
  | exit =>
    simp only [Machine.step, h]
    refine .inl ⟨m.exit_slice p p, ?_, .inr rfl⟩
    unfold Machine.exit
    dsimp only
    split <;> rfl
  | create p' pid =>
    have hm : (m.step (.create p' pid)).proc p = m.proc p := by
      simp only [Machine.step]
      by_cases hpp : p = p'
      · rw [← hpp, m.upd_self]
        simp [Proc.step, hst]
      · exact m.upd_of_ne p _ hpp
    rw [hm]
    exact .inl ⟨rfl, rfl, .inl ⟨h, hst, rfl⟩⟩
  | reap p' =>
    simp only [Machine.step]
    split
    · rename_i hz
      have hpp : p ≠ p' := by grind
      rw [m.upd_of_ne p _ hpp]
      exact .inl ⟨rfl, rfl, .inl ⟨h, hst, rfl⟩⟩
    · exact .inl ⟨rfl, rfl, .inl ⟨h, hst, rfl⟩⟩

theorem Proc.boosted_slice (q : Proc) : q.boosted.slice = q.slice
      ∨ q.boosted.slice = (0, 0, q.ticks, q.timesScheduled) := by
  unfold Proc.boosted
  split
  · exact .inr rfl
  · exact .inl rfl

theorem Machine.tick_waiting (h : m.running ≠ some p) :
    (m.tick.proc p).slice = (m.proc p).slice ∧ m.tick.running = m.running := by
  unfold Machine.tick
  rw [Machine.wakeup_slice]
  unfold Machine.charge
  cases hr : m.running with
  | none => exact ⟨rfl, hr⟩
  | some r =>
    refine ⟨?_, hr⟩
    have hne : p ≠ r := fun heq => h (by rw [hr, heq])
    show ((m.upd r Proc.charged).proc p).slice = _
    rw [m.upd_of_ne p _ hne]

/-- A waiting process is boosted or left alone. -/
theorem Machine.clockintr_waiting (h : m.running ≠ some p) :
    ((m.clockintr.proc p).slice = (m.proc p).slice ∨ (m.clockintr.proc p).slice
        = (0, 0, (m.proc p).ticks, (m.proc p).timesScheduled))
    ∧ m.clockintr.running = m.running := by
  obtain ⟨hp, hr⟩ := m.tick_waiting p h
  unfold Machine.clockintr
  split
  · refine ⟨?_, hr⟩
    rcases (m.tick.proc p).boosted_slice with hs | hs
    · exact .inl (hs.trans hp)
    · refine .inr (hs.trans ?_)
      unfold Proc.slice at hp
      simp only [Prod.mk.injEq] at hp
      rw [hp.2.2.1, hp.2.2.2]
  · exact ⟨.inl hp, hr⟩

/-- A step while `p` does not run. -/
theorem Machine.step_waiting (o : SchedOp) (h : m.running ≠ some p) :
    ((m.step o).running = some p ∧ (m.step o).proc p = (m.proc p).picked)
    ∨ (m.step o).running ≠ some p ∧ (((m.step o).proc p).slice = (m.proc p).slice
        ∨ ((m.step o).proc p).slice = (0, 0, (m.proc p).ticks, (m.proc p).timesScheduled)
        ∨ ((m.step o).proc p).slice = (0, 0, fun _ => 0, 0)) := by
  cases o with
  | schedule =>
    simp only [Machine.step, Machine.schedule]
    split
    · rename_i level p' _ _
      by_cases hpp : p = p'
      · exact .inl ⟨by rw [hpp], by rw [← hpp]; exact m.upd_self p _⟩
      · refine .inr ⟨fun heq => hpp (Option.some.inj heq).symm, .inl ?_⟩
        exact congrArg Proc.slice (m.upd_of_ne p _ hpp)
    · exact .inr ⟨h, .inl rfl⟩
  | timer fromUser =>
    obtain ⟨hs, hr⟩ := m.clockintr_waiting p h
    have hcase : ∀ m' : Machine, m'.running ≠ some p →
        (m'.proc p).slice = (m.clockintr.proc p).slice → m'.running ≠ some p
        ∧ ((m'.proc p).slice = (m.proc p).slice ∨ (m'.proc p).slice
            = (0, 0, (m.proc p).ticks, (m.proc p).timesScheduled)
          ∨ (m'.proc p).slice = (0, 0, fun _ => 0, 0)) := by grind
    refine .inr ?_
    simp only [Machine.step, Machine.timer]
    split
    · exact hcase _ (hr ▸ h) rfl
    · rename_i r hrun
      have hne : p ≠ r := fun heq => h (by rw [← hr, hrun, heq])
      split
      · exact hcase _ nofun (Machine.exit_slice _ p r)
      · split
        · exact hcase _ nofun (congrArg Proc.slice (Machine.upd_of_ne _ p _ hne))
        · exact hcase _ (hr ▸ h) rfl
  | syscall =>
    simp only [Machine.step]
    split
    · exact .inr ⟨h, .inl rfl⟩
    · exact .inr ⟨h, .inl (m.upd_slice p _ (f := Proc.called) fun _ => rfl)⟩
  | sleep chan =>
    simp only [Machine.step]
    split
    · exact .inr ⟨h, .inl rfl⟩
    · exact .inr ⟨nofun, .inl (m.upd_slice p _
        (f := fun q => { q with state := .sleeping }) fun _ => rfl)⟩
  | wakeup chan => exact .inr ⟨h, .inl (m.wakeup_slice p chan)⟩
  | kill pid =>
    refine .inr ⟨?_, .inl (m.kkill_slice p pid)⟩
    simp only [Machine.step, Machine.kkill]
    split <;> exact h
  | exit =>
    simp only [Machine.step]
    split
    · exact .inr ⟨h, .inl rfl⟩
    · exact .inr ⟨nofun, .inl (m.exit_slice p _)⟩
  | create p' pid =>
    refine .inr ⟨h, ?_⟩
    simp only [Machine.step]
    by_cases hpp : p = p'
    · rw [← hpp, m.upd_self]
      simp only [Proc.step]
      split
      · exact .inr (.inr rfl)
      · exact .inl rfl
    · exact .inl (congrArg Proc.slice (m.upd_of_ne p _ hpp))
  | reap p' =>
    simp only [Machine.step]
    split
    · exact .inr ⟨h, .inl (m.upd_slice p p' (f := Proc.cleared) fun _ => rfl)⟩
    · exact .inr ⟨h, .inl rfl⟩

end effects

-- ======== one slice

/-- A slice that started when the process had been charged `base` ticks
(module comment). -/
def SliceFrom (base : Int) (ticks : Nat) (q : Proc) : Prop :=
  q.sumTicks - base = q.currentTicks ∨ (q.level = 0 ∧ q.sumTicks - base ≤ 16 + q.currentTicks
      ∧ ((ticks % boostInterval : Nat) : Int) = q.currentTicks)

/-- A slice is at most 18 ticks. -/
theorem SliceFrom.le {ticks : Nat} (h : SliceFrom base ticks q)
    (hq : q.InQuantum) : q.sumTicks ≤ base + 18 := by
  have hle := (mlfqQuantum_bounds q.level).2
  have hct := hq.2
  rcases h with h | ⟨hl, h, -⟩
  · omega
  · rw [hl] at hct
    have h0 : mlfqQuantum 0 = 2 := rfl
    omega

/-- `p` is in the middle of a slice that started at `base` ticks. -/
structure Machine.InSlice (m : Machine) (p : ProcId) (base : Int) : Prop where
  running : m.running = some p
  state : (m.proc p).state = .running
  fresh : (m.proc p).timeSliceExpired = false
  pos : 0 ≤ (m.proc p).currentTicks
  lt : (m.proc p).currentTicks < mlfqQuantum (m.proc p).level
  start : SliceFrom base m.ticks (m.proc p)

section slice

variable {m : Machine} {p : ProcId} {base : Int}

/-- `clockintr` in the middle of a slice. -/
theorem Machine.InSlice.accounted (h : m.InSlice p base) :
    (m.accounted p).InQuantum ∧ (m.accounted p).state = .running
      ∧ (m.accounted p).timesScheduled = (m.proc p).timesScheduled
      ∧ ((m.accounted p).timeSliceExpired = false →
        (m.accounted p).currentTicks < mlfqQuantum (m.accounted p).level)
      ∧ SliceFrom base ((m.ticks + 1) % 2 ^ 32) (m.accounted p) := by
  obtain ⟨-, hst, hfresh, hpos, hlt, hstart⟩ := h
  have hsum := Proc.charged_sumTicks hst
  have hbound := mlfqQuantum_bounds (m.proc p).level
  have hcharged : (m.proc p).charged = { m.proc p with
          currentTicks := (m.proc p).currentTicks + 1
          ticks := (m.proc p).charged.ticks
          timeSliceExpired := (m.proc p).charged.timeSliceExpired } := by
    unfold Proc.charged
    rw [if_pos hst]
  have hexp : (m.proc p).charged.timeSliceExpired = false →
      (m.proc p).currentTicks + 1 < mlfqQuantum (m.proc p).level := by
    grind [Proc.charged]
  unfold Machine.accounted
  by_cases hb : m.boosts
  · -- the slice goes on at level 0, with the clock at a boost
    have hboost : (m.proc p).charged.boosted = { (m.proc p).charged with
            level := 0, currentTicks := 0, timeSliceExpired := false } := by
      unfold Proc.boosted
      rw [if_pos (by rw [hcharged]; simp [hst])]
    have hclock : (m.ticks + 1) % 2 ^ 32 % boostInterval = 0 := hb
    rw [if_pos hb, hboost]
    have h0 : mlfqQuantum 0 = 2 := rfl
    refine ⟨⟨le_refl _, ?_⟩, by rw [hcharged]; exact hst, by rw [hcharged],
      fun _ => ?_, .inr ⟨rfl, ?_, ?_⟩⟩
    · show (0 : Int) ≤ mlfqQuantum 0
      omega
    · show (0 : Int) < mlfqQuantum 0
      omega
    · show (m.proc p).charged.sumTicks - base ≤ 16 + 0
      rcases hstart with h1 | ⟨hl, -, hclock'⟩
      · omega
      · -- a second boost would be at most two ticks after the first
        rw [hl] at hlt
        simp only [boostInterval] at hclock hclock'
        omega
    · rw [hclock]
      rfl
  · have hclock : ¬ (m.ticks + 1) % 2 ^ 32 % boostInterval = 0 := hb
    rw [if_neg hb]
    refine ⟨?_, by rw [hcharged]; exact hst, by rw [hcharged], ?_, ?_⟩
    · rw [hcharged]
      exact ⟨by show 0 ≤ (m.proc p).currentTicks + 1; omega, hlt⟩
    · rw [hcharged]
      exact hexp
    · grind [SliceFrom]

theorem Proc.yielded_slice (q : Proc) (h : q.InQuantum) :
    q.yielded.InQuantum ∧ q.yielded.sumTicks = q.sumTicks
      ∧ q.yielded.timesScheduled = q.timesScheduled := by
  unfold Proc.yielded
  split
  · refine ⟨⟨le_refl _, ?_⟩, rfl, rfl⟩
    have := (mlfqQuantum_bounds (if q.syscallCount - q.sliceStartSyscalls
        < (if q.currentTicks < 0 then 0 else q.currentTicks) then
          lowerLevel q.level else q.level)).1
    dsimp only
    omega
  · exact ⟨h, rfl, rfl⟩

/-- One step of the machine within a slice. -/
theorem Machine.InSlice.step (h : m.InSlice p base) (o : SchedOp) : ((m.step o).proc p).InQuantum
      ∧ ((m.step o).proc p).sumTicks ≤ base + 18
      ∧ ((m.step o).proc p).timesScheduled = (m.proc p).timesScheduled
      ∧ ((m.step o).InSlice p base ∨ (m.step o).running = none) := by
  have hq : (m.proc p).InQuantum := ⟨h.pos, h.lt.le⟩
  obtain ⟨hqa, hsta, htimes, hfresh, hfrom⟩ := h.accounted
  rcases m.step_running p o h.running h.state with
    ⟨hs, ht, hrun⟩ | ⟨ht, ⟨hrun, hp, hexp⟩ | ⟨hrun, hp⟩⟩
  · obtain ⟨hl, hc, hsum, hts⟩ := Proc.slice_eq hs
    refine ⟨hq.congr hs, by rw [hsum]; exact h.start.le hq, hts, ?_⟩
    rcases hrun with ⟨hrun, hst, hexp⟩ | hrun
    · refine .inl ⟨hrun, hst, hexp.trans h.fresh, by rw [hc]; exact h.pos,
        by rw [hc, hl]; exact h.lt, ?_⟩
      unfold SliceFrom
      rw [hsum, hc, hl, ht]
      exact h.start
    · exact .inr hrun
  · rw [hp]
    refine ⟨hqa, hfrom.le hqa, htimes, .inl ⟨hrun, ?_, ?_, ?_, ?_, ?_⟩⟩ <;> rw [hp]
    · exact hsta
    · exact hexp
    · exact hqa.1
    · exact hfresh hexp
    · rw [ht]
      exact hfrom
  · rcases hp with hp | hp
    · obtain ⟨-, -, hsum, hts⟩ := Proc.slice_eq hp
      exact ⟨hqa.congr hp, by rw [hsum]; exact hfrom.le hqa, hts.trans htimes, .inr hrun⟩
    · obtain ⟨hqy, hsum, hts⟩ := Proc.yielded_slice _ hqa
      rw [hp]
      exact ⟨hqy, by rw [hsum]; exact hfrom.le hqa, hts.trans htimes, .inr hrun⟩

/-- The start of a slice. -/
theorem Machine.InSlice.start_of_pick {m' : Machine} {q : Proc}
    (hrun : m'.running = some p) (hp : m'.proc p = q.picked) : m'.InSlice p q.sumTicks := by
  have hbound := mlfqQuantum_bounds q.level
  refine ⟨hrun, ?_, ?_, ?_, ?_, .inl ?_⟩ <;> rw [hp]
  · rfl
  · rfl
  · exact le_refl _
  · show 0 < mlfqQuantum q.level
    omega
  · show q.sumTicks - q.sumTicks = 0
    omega

end slice

-- ======== whole runs

/-- The bounds for one process. -/
structure Machine.Timed (m : Machine) (p : ProcId) : Prop where
  quantum : (m.proc p).InQuantum
  bound : (m.proc p).sumTicks ≤ 18 * (m.proc p).timesScheduled
  slice : m.running = some p → ∃ base,
    base ≤ 18 * ((m.proc p).timesScheduled - 1) ∧ m.InSlice p base

/-- The start of level 0, after a boost or at creation. -/
theorem Proc.fresh_slice {ticks : Fin mlfqLevels → Int} {times : Int}
    (h : q.slice = (0, 0, ticks, times)) :
    q.InQuantum ∧ q.sumTicks = ticks 0 + ticks 1 + ticks 2 + ticks 3
      ∧ q.timesScheduled = times := by
  unfold Proc.slice at h
  simp only [Prod.mk.injEq] at h
  obtain ⟨hl, hc, ht, hw⟩ := h
  unfold Proc.InQuantum Proc.sumTicks
  rw [hl, hc, ht, hw]
  exact ⟨by decide, rfl, rfl⟩

/-- Every step keeps the bounds. -/
theorem Machine.Timed.step (h : m.Timed p) (o : SchedOp) : (m.step o).Timed p := by
  have hbound := h.bound
  by_cases hrun : m.running = some p
  · obtain ⟨base, hbase, hin⟩ := h.slice hrun
    obtain ⟨hq, hle, htimes, hnext⟩ := hin.step o
    refine ⟨hq, by rw [htimes]; omega, fun hrun' => ⟨base, ?_, ?_⟩⟩
    · rw [htimes]
      exact hbase
    · grind
  · rcases m.step_waiting p o hrun with ⟨hrun', hp⟩ | ⟨hrun', hs | hs | hs⟩
    · have hin := Machine.InSlice.start_of_pick hrun' hp
      refine ⟨⟨hin.pos, hin.lt.le⟩, ?_, fun _ => ⟨_, ?_, hin⟩⟩ <;> rw [hp]
      · show (m.proc p).sumTicks ≤ 18 * ((m.proc p).timesScheduled + 1)
        omega
      · show (m.proc p).sumTicks ≤ 18 * ((m.proc p).timesScheduled + 1 - 1)
        omega
    · obtain ⟨-, -, hsum, hts⟩ := Proc.slice_eq hs
      refine ⟨h.quantum.congr hs, ?_, fun h' => absurd h' hrun'⟩
      rw [hsum, hts]
      exact hbound
    · obtain ⟨hq, hsum, hts⟩ := Proc.fresh_slice hs
      refine ⟨hq, ?_, fun h' => absurd h' hrun'⟩
      rw [hsum, hts]
      exact hbound
    · obtain ⟨hq, hsum, hts⟩ := Proc.fresh_slice hs
      refine ⟨hq, ?_, fun h' => absurd h' hrun'⟩
      rw [hsum, hts]
      decide

theorem Machine.Timed.run (h : m.Timed p) (ops : List SchedOp) : (m.run ops).Timed p := by
  induction ops generalizing m with
  | nil => exact h
  | cons o ops ih => exact ih (h.step o)

theorem Machine.initial_timed (p : ProcId) : Machine.initial.Timed p :=
  ⟨⟨le_refl _, by show (0 : Int) ≤ mlfqQuantum 0; decide⟩,
    by show (0 : Int) ≤ 18 * 0; decide, nofun⟩

/-- `p` holds the CPU before each of the steps. -/
def OnCpu (p : ProcId) : Machine → List SchedOp → Prop
  | _, [] => True
  | m, o :: ops => m.running = some p ∧ OnCpu p (m.step o) ops

/-- A process that stays on its CPU is within its slice. -/
theorem Machine.InSlice.run (h : m.InSlice p base) {ops : List SchedOp}
    (hon : OnCpu p m ops) : ((m.run ops).proc p).sumTicks ≤ base + 18 := by
  induction ops generalizing m with
  | nil => exact h.start.le ⟨h.pos, h.lt.le⟩
  | cons o ops ih =>
    obtain ⟨hq, hle, -, hnext⟩ := h.step o
    cases ops with
    | nil => exact hle
    | cons o' ops =>
      rcases hnext with hnext | hnext
      · exact ih hnext hon.2
      · rw [hon.2.1] at hnext
        cases hnext

/-- In every state the machine reaches, every process has a level in range
and has used at most its quantum; it has been charged at most 18 ticks for
each time it was scheduled, and from a pass of the scheduler that puts it
on the CPU to the step in which it leaves, at most 18. -/
theorem time_slice_bound (ops : List SchedOp) (m : Machine)
    (hm : m = Machine.initial.run ops) (p : ProcId) :
    (m.proc p).level.val < mlfqLevels ∧ 0 ≤ (m.proc p).currentTicks
      ∧ (m.proc p).currentTicks ≤ mlfqQuantum (m.proc p).level
      ∧ (m.proc p).sumTicks ≤ 18 * (m.proc p).timesScheduled
      ∧ (m.running = none → m.schedule.running = some p → ∀ slice, OnCpu p m.schedule slice →
          ((m.schedule.run slice).proc p).sumTicks ≤ (m.proc p).sumTicks + 18) := by
  have ht : m.Timed p := hm ▸ (Machine.initial_timed p).run ops
  refine ⟨(m.proc p).level.isLt, ht.quantum.1, ht.quantum.2, ht.bound, ?_⟩
  intro hidle hrun slice hon
  have hne : m.running ≠ some p := by rw [hidle]; exact nofun
  rcases m.step_waiting p .schedule hne with ⟨-, hp⟩ | ⟨hno, -⟩
  · exact (Machine.InSlice.start_of_pick hrun hp).run hon
  · exact absurd hrun hno

theorem time_slice_bound_first : ((Machine.initial.run [.create 0 1]).schedule.run
        [.timer true, .timer true]).running = none
      ∧ (((Machine.initial.run [.create 0 1]).schedule.run
        [.timer true, .timer true]).proc 0).sumTicks ≤ 0 + 18 :=
  ⟨by decide +kernel, (time_slice_bound [.create 0 1] _ rfl 0).2.2.2.2 rfl
    (by decide +kernel) [.timer true, .timer true] ⟨by decide +kernel, by decide +kernel, trivial⟩⟩

end GemOS
