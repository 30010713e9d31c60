/-
The SC-MLFQ scheduler: `scheduler`, `yield`, `sleep`, `wakeup`,
`mlfq_boost` and the process side of `clockintr`.

Every event is first a function on one `struct proc` (`Proc.picked`,
`Proc.charged`, ...), written as the code between two lock operations
does it. `Proc.step` runs one process through events in any order, as
other CPUs and the boost may deliver them. `Machine` is the one-CPU
system made of the same functions: the process table, the sleep channels,
`mlfq_head[]`, `c->proc` and `ticks`.

A timer interrupt is one step of the machine: `clockintr`, then what
`usertrap` or `kerneltrap` does before it goes back (the first checks
`killed`, and both yield when the slice has expired). Interrupts are off
inside the scheduler's critical sections, so nothing comes between.
-/
import GemOS.Kernel.Boot
import GemOS.Kernel.Proc

namespace GemOS

open Function

-- ======== one process

/-- `BOOST_INTERVAL`. -/
abbrev boostInterval : Nat := 128

/-- `mlfq_quantum[]`. -/
def mlfqQuantum (level : Fin mlfqLevels) : Int :=
  match level.val with
  | 0 => 2
  | 1 => 4
  | 2 => 8
  | _ => 16

/-- "start a new time slice for this process". -/
def Proc.picked (q : Proc) : Proc :=
  { q with
    state := .running
    currentTicks := 0
    timeSliceExpired := false
    sliceStartSyscalls := q.syscallCount
    timesScheduled := q.timesScheduled + 1 }

/-- "Account one tick of CPU time to the currently running process"; the
test for a level out of range cannot succeed. -/
def Proc.charged (q : Proc) : Proc :=
  if q.state = .running then
    { q with
      currentTicks := q.currentTicks + 1
      ticks := update q.ticks q.level (q.ticks q.level + 1)
      timeSliceExpired :=
        if q.currentTicks + 1 ≥ mlfqQuantum q.level then true
        else q.timeSliceExpired }
  else q

/-- `p->syscall_count++` in `syscall`. -/
def Proc.called (q : Proc) : Proc :=
  { q with syscallCount := q.syscallCount + 1 }

/-- The body of `mlfq_boost`. -/
def Proc.boosted (q : Proc) : Proc :=
  if q.state ≠ .unused ∧ q.state ≠ .zombie then
    { q with level := 0, currentTicks := 0, timeSliceExpired := false }
  else q

/-- `if(p->level < MLFQ_LEVELS - 1) p->level++`. -/
def lowerLevel (level : Fin mlfqLevels) : Fin mlfqLevels :=
  if h : level.val < mlfqLevels - 1 then ⟨level.val + 1, by omega⟩ else level

/-- `yield` up to `sched()`. -/
def Proc.yielded (q : Proc) : Proc :=
  if q.timeSliceExpired then
    let deltaSyscalls := q.syscallCount - q.sliceStartSyscalls
    let deltaTicks := if q.currentTicks < 0 then 0 else q.currentTicks
    { q with
      level := if deltaSyscalls < deltaTicks then lowerLevel q.level else q.level
      currentTicks := 0
      timeSliceExpired := false
      state := .runnable }
  else { q with state := .runnable }

/-- What can happen to one process. -/
inductive ProcOp
  | create (pid : Int)
  | pick
  | tick
  | syscall
  | sleep
  | wakeup
  | yield
  | boost
  deriving DecidableEq, Repr

/-- One event; those that the code only applies in certain states are
no-ops in the others. -/
def Proc.step (q : Proc) : ProcOp → Proc
  | .create pid =>
    if q.state = .unused then { q.claimed pid with state := .runnable } else q
  | .pick => if q.state = .runnable then q.picked else q
  | .tick => q.charged
  | .syscall => if q.state = .running then q.called else q
  | .sleep => if q.state = .running then { q with state := .sleeping } else q
  | .wakeup => if q.state = .sleeping then { q with state := .runnable } else q
  | .yield => if q.state = .running then q.yielded else q
  | .boost => q.boosted

-- ======== the machine

/-- What a process sleeps on: `&ticks`, a process (`kwait`), or anything
else. -/
inductive Chan
  | ticks
  | proc (p : ProcId)
  | other (n : Nat)
  deriving DecidableEq, Repr

/-- One CPU and the process table. -/
structure Machine where
  proc : ProcId → Proc
  chan : ProcId → Option Chan
  mlfqHead : Fin mlfqLevels → ProcId
  running : Option ProcId
  ticks : Nat

def Machine.upd (m : Machine) (p : ProcId) (f : Proc → Proc) : Machine :=
  { m with proc := update m.proc p (f (m.proc p)) }

/-- `(start + i) % NPROC`. -/
def slotAt (start : ProcId) (i : Nat) : ProcId :=
  ⟨(start.val + i) % nproc, Nat.mod_lt _ (by decide)⟩

/-- `p->state == RUNNABLE && p->level == level`. -/
def Machine.ready (m : Machine) (level : Fin mlfqLevels) (p : ProcId) : Bool :=
  (m.proc p).state == .runnable && (m.proc p).level == level

/-- The inner loop of `scheduler`: the first ready process of the level,
from `mlfq_head[level]` on. -/
def Machine.pickAt (m : Machine) (level : Fin mlfqLevels) : Option ProcId :=
  (firstIndex (fun i => m.ready level (slotAt (m.mlfqHead level) i)) nproc 0).map
    (slotAt (m.mlfqHead level))

/-- The loop over the levels. -/
def Machine.pick (m : Machine) : Option (Fin mlfqLevels × ProcId) :=
  (List.finRange mlfqLevels).findSome? fun level =>
    (m.pickAt level).map fun p => (level, p)

/-- One pass of `scheduler`, up to the `swtch` to the chosen process. The
head of the level stays on it. -/
def Machine.schedule (m : Machine) : Machine :=
  match m.running, m.pick with
  | none, some (level, p) =>
    { m.upd p Proc.picked with
      mlfqHead := update m.mlfqHead level p
      running := some p }
  | _, _ => m

def Machine.wakeup (m : Machine) (chan : Chan) : Machine :=
  { m with
    proc := fun p =>
      if m.running ≠ some p ∧ (m.proc p).state = .sleeping ∧ m.chan p = some chan then
        { m.proc p with state := .runnable }
      else m.proc p }

def Machine.mlfqBoost (m : Machine) : Machine :=
  { m with proc := fun p => (m.proc p).boosted }

/-- "Account one tick of CPU time", if there is a process to charge. -/
def Machine.charge (m : Machine) : Machine :=
  match m.running with
  | none => m
  | some p => m.upd p Proc.charged

/-- `clockintr` up to the boost. -/
def Machine.tick (m : Machine) : Machine :=
  { m.charge with ticks := (m.ticks + 1) % 2 ^ 32 }.wakeup .ticks

def Machine.clockintr (m : Machine) : Machine :=
  if m.tick.ticks % boostInterval = 0 then m.tick.mlfqBoost else m.tick

/-- `yield` by the running process. -/
def Machine.yield (m : Machine) (p : ProcId) : Machine :=
  { m.upd p Proc.yielded with running := none }

/-- `kexit` by the running process: the parent is woken. -/
def Machine.exit (m : Machine) (p : ProcId) : Machine :=
  let m1 := match (m.proc p).parent with
    | none => m
    | some parent => m.wakeup (.proc parent)
  { m1.upd p fun q => { q with state := .zombie } with running := none }

/-- A timer interrupt, from user or from kernel mode. -/
def Machine.timer (m : Machine) (fromUser : Bool) : Machine :=
  let m1 := m.clockintr
  match m1.running with
  | none => m1
  | some p =>
    if fromUser ∧ (m1.proc p).killed then m1.exit p
    else if (m1.proc p).timeSliceExpired then m1.yield p
    else m1

def Machine.sleep (m : Machine) (p : ProcId) (chan : Chan) : Machine :=
  { m.upd p fun q => { q with state := .sleeping } with
    chan := update m.chan p (some chan)
    running := none }

/-- `kkill`: the first slot with that pid, an unused one included. -/
def Machine.kkill (m : Machine) (pid : Int) : Machine :=
  match (List.finRange nproc).find? fun p => (m.proc p).pid == pid with
  | none => m
  | some p => m.upd p fun q =>
    { q with
      killed := true
      state := if q.state = .sleeping then .runnable else q.state }

/-- What can happen on the machine. -/
inductive SchedOp
  | schedule
  | timer (fromUser : Bool)
  | syscall
  | sleep (chan : Chan)
  | wakeup (chan : Chan)
  | kill (pid : Int)
  | exit
  /-- `allocproc` and the rest of `kfork` or `userinit`, on a free slot. -/
  | create (p : ProcId) (pid : Int)
  /-- `freeproc` on a zombie. -/
  | reap (p : ProcId)
  deriving DecidableEq, Repr

def Machine.step (m : Machine) : SchedOp → Machine
  | .schedule => m.schedule
  | .timer fromUser => m.timer fromUser
  | .syscall =>
    match m.running with
    | none => m
    | some p => m.upd p Proc.called
  | .sleep chan =>
    match m.running with
    | none => m
    | some p => m.sleep p chan
  | .wakeup chan => m.wakeup chan
  | .kill pid => m.kkill pid
  | .exit =>
    match m.running with
    | none => m
    | some p => m.exit p
  | .create p pid => m.upd p fun q => q.step (.create pid)
  | .reap p =>
    if (m.proc p).state = .zombie then m.upd p Proc.cleared else m

/-- The machine after `procinit`: no process, zeroed globals. -/
def Machine.initial : Machine :=
  { proc := fun _ => .initial
    chan := fun _ => none
    mlfqHead := fun _ => 0
    running := none
    ticks := 0 }

/-- A run of the machine. -/
def Machine.run (m : Machine) (ops : List SchedOp) : Machine :=
  ops.foldl Machine.step m

end GemOS
