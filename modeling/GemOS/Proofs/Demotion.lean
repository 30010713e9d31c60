/-
The SC-MLFQ demotion rule over the life of one process.

The rule compares system calls and ticks over one interval, the time since
`current_ticks` was last set to 0. `Interval` counts both over that
interval, beside the process and independently of its fields; the code
keeps the ticks in `current_ticks`, but derives the system calls from
`slice_start_syscalls`, which only the scheduler sets.

# Where the two agree

`current_ticks` is reset at a pick, at an expired yield and by a boost.
A yield is followed by a pick before the next system call, so only a boost
that hits the process while it runs can leave the two intervals apart:
`slice_start_syscalls` stays behind. They agree when such a boost comes
before the first system call of the slice.
-/
import GemOS.Kernel.Sched

namespace GemOS

/-- The event sets `current_ticks` to 0. -/
def ProcOp.resets (q : Proc) : ProcOp → Bool
  | .create _ => q.state == .unused
  | .pick => q.state == .runnable
  | .yield => q.state == .running && q.timeSliceExpired
  | .boost => q.state != .unused && q.state != .zombie
  | _ => false

/-- A process, with the system calls made and the ticks consumed since its
`current_ticks` was last reset. -/
structure Interval where
  proc : Proc
  syscalls : Int
  ticks : Int

def Interval.step (i : Interval) (o : ProcOp) : Interval :=
  { proc := i.proc.step o
    syscalls :=
      if o.resets i.proc then 0
      else if o = .syscall ∧ i.proc.state = .running then i.syscalls + 1
      else i.syscalls
    ticks :=
      if o.resets i.proc then 0
      else if o = .tick ∧ i.proc.state = .running then i.ticks + 1
      else i.ticks }

/-- A slot before its process is created. -/
def Interval.start (q : Proc) : Interval := { proc := q, syscalls := 0, ticks := 0 }

def Interval.run (i : Interval) (ops : List ProcOp) : Interval :=
  ops.foldl Interval.step i

/-- A boost that hits the process while it runs comes before the first
system call of its slice. -/
def BoostsEarly : Interval → List ProcOp → Prop
  | _, [] => True
  | i, o :: ops =>
    (o = .boost → i.proc.state = .running → i.proc.syscallCount = i.proc.sliceStartSyscalls)
    ∧ BoostsEarly (i.step o) ops

/-- The fields of the process against the counts. -/
structure Interval.Agrees (i : Interval) : Prop where
  ticks : i.proc.state ≠ .unused → i.proc.currentTicks = i.ticks ∧ 0 ≤ i.ticks
  syscalls : i.proc.state = .running → i.proc.syscallCount - i.proc.sliceStartSyscalls = i.syscalls

-- ======== one event

theorem Interval.Agrees.step {i : Interval} (h : i.Agrees) (o : ProcOp)
    (hboost : o = .boost → i.proc.state = .running →
      i.proc.syscallCount = i.proc.sliceStartSyscalls) :
    (i.step o).Agrees := by
  obtain ⟨ht, hs⟩ := h
  cases o with
  | create pid =>
    constructor <;> grind [Interval.step, Proc.step, ProcOp.resets,
      Proc.claimed, Proc.initMlfqState]
  | pick =>
    -- both counts start anew
    constructor <;> grind [Interval.step, Proc.step, ProcOp.resets, Proc.picked]
  | tick => constructor <;> grind [Interval.step, Proc.step, ProcOp.resets, Proc.charged]
  | syscall => constructor <;> grind [Interval.step, Proc.step, ProcOp.resets, Proc.called]
  | sleep => constructor <;> grind [Interval.step, Proc.step, ProcOp.resets]
  | wakeup => constructor <;> grind [Interval.step, Proc.step, ProcOp.resets]
  | yield => constructor <;> grind [Interval.step, Proc.step, ProcOp.resets, Proc.yielded]
  | boost =>
    -- the ticks start anew, the system calls of the code do not
    constructor <;> grind [Interval.step, Proc.step, ProcOp.resets, Proc.boosted]

/-- The level changes at an expired yield, and is set to 0 by a boost and
at creation; nothing else touches it. -/
theorem Proc.step_level (q : Proc) (o : ProcOp) : (q.step o).level = q.level
      ∨ (o = .yield ∧ q.timeSliceExpired = true)
      ∨ ((o = .boost ∨ ∃ pid, o = .create pid) ∧ (q.step o).level = 0) := by
  cases o with
  | create pid =>
    by_cases hq : q.state = .unused
    · exact .inr (.inr ⟨.inr ⟨pid, rfl⟩, by simp only [Proc.step, if_pos hq]; rfl⟩)
    · exact .inl (by simp only [Proc.step, if_neg hq])
  | pick => exact .inl (by simp only [Proc.step]; split <;> rfl)
  | tick => exact .inl (by simp only [Proc.step, Proc.charged]; split <;> rfl)
  | syscall => exact .inl (by simp only [Proc.step]; split <;> rfl)
  | sleep => exact .inl (by simp only [Proc.step]; split <;> rfl)
  | wakeup => exact .inl (by simp only [Proc.step]; split <;> rfl)
  | yield =>
    by_cases he : q.timeSliceExpired = true
    · exact .inr (.inl ⟨rfl, he⟩)
    · exact .inl (by simp only [Proc.step, Proc.yielded, if_neg he]; split <;> rfl)
  | boost =>
    by_cases hq : q.state ≠ .unused ∧ q.state ≠ .zombie
    · exact .inr (.inr ⟨.inl rfl, by simp only [Proc.step, Proc.boosted, if_pos hq]⟩)
    · exact .inl (by simp only [Proc.step, Proc.boosted, if_neg hq])

theorem lowerLevel_val (level : Fin mlfqLevels) :
    (lowerLevel level).val = min (level.val + 1) (mlfqLevels - 1) := by
  have hlt : level.val < 4 := level.isLt
  unfold lowerLevel
  by_cases h : level.val < mlfqLevels - 1
  · rw [dif_pos h]
    exact (Nat.min_eq_left h).symm
  · grind

-- ======== whole lives

theorem Interval.Agrees.run {i : Interval} {ops : List ProcOp}
    (h : i.Agrees) (hboost : BoostsEarly i ops) : (i.run ops).Agrees := by
  induction ops generalizing i with
  | nil => exact h
  | cons o ops ih => exact ih (h.step o hboost.1) hboost.2

/-- In every life whose boosts come early, an expired yield demotes by one
level exactly when the process made fewer system calls than it consumed
ticks since `current_ticks` was last 0, and no other event changes the
level except a boost or the creation, which set it to 0. -/
theorem demotion_rule (q : Proc) (hq : q.state = .unused)
    (ops : List ProcOp) (hboost : BoostsEarly (.start q) ops) (i : Interval)
    (hi : i = (Interval.start q).run ops) :
    (i.proc.state = .running → i.proc.timeSliceExpired = true → (i.proc.step .yield).level.val
        = if i.syscalls < i.ticks then
            min (i.proc.level.val + 1) (mlfqLevels - 1)
          else i.proc.level.val)
    ∧ ∀ o, (i.proc.step o).level = i.proc.level ∨ (o = .yield ∧ i.proc.timeSliceExpired = true)
        ∨ ((o = .boost ∨ ∃ pid, o = .create pid) ∧ (i.proc.step o).level = 0) := by
  refine ⟨fun hrun hexp => ?_, i.proc.step_level⟩
  have hstart : (Interval.start q).Agrees :=
    ⟨fun h => absurd hq h, fun h => absurd (hq.symm.trans h) nofun⟩
  obtain ⟨ht, hs⟩ := hi ▸ hstart.run hboost
  obtain ⟨hticks, hpos⟩ := ht (by rw [hrun]; decide)
  have hnot : ¬ i.ticks < 0 := by omega
  simp only [Proc.step, if_pos hrun, Proc.yielded, if_pos hexp, hs hrun, hticks, if_neg hnot]
  split
  · exact lowerLevel_val _
  · rfl

/-- A boost at the start of the first slice, then two ticks without a
system call: the process goes down to level 1. -/
theorem demotion_rule_idle : (((Interval.start .initial).run
      [.create 1, .pick, .boost, .tick, .tick]).proc.step .yield).level.val = 1 :=
  (demotion_rule .initial rfl [.create 1, .pick, .boost, .tick, .tick]
    ⟨nofun, nofun, fun _ _ => rfl, nofun, nofun, trivial⟩ _ rfl).1 rfl rfl

/-- Two system calls and a tick, with the boost of that tick, then two
ticks without a system call. -/
def boostedSlice : Interval :=
  (Interval.start .initial).run [.create 1, .pick, .syscall, .syscall, .tick, .boost, .tick, .tick]

/-- Since `current_ticks` was reset that process made no system call and
consumed two ticks, and its expired yield leaves it on level 0. -/
theorem demotion_missed : boostedSlice.proc.state = .running
      ∧ boostedSlice.proc.timeSliceExpired = true
      ∧ boostedSlice.syscalls < boostedSlice.ticks
      ∧ (boostedSlice.proc.step .yield).level.val
        ≠ min (boostedSlice.proc.level.val + 1) (mlfqLevels - 1) := by
  decide

end GemOS
