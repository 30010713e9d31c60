/-
The process table as any number of CPUs use it at once: `scheduler`,
`sched`, `yield`, `forkret`, `sleep`, `wakeup`, `kkill`, `kfork`,
`reparent`, `kexit` and `kwait` (`proc.c`), `mlfq_boost`, the first part of
`clockintr` (`trap.c`) and `sys_getppid` (`sysproc.c`).

# Granularity

A CPU is in the loop of `scheduler`, in a process, or on its way back
through `swtch`. A process has a place in the call it is in (`Pc`). A
section under a `p->lock` is one step, with two exceptions, where the lock
stays taken between steps: from one side of a `swtch` to the other, and in
`sys_getppid`. `wait_lock` is taken and given back in steps of their own,
so that every `p->lock` section within it is a step, too; so is every
round of the loops of `wakeup`, `reparent`, `kwait`, `kkill` and
`allocproc`, and every look at a process in `scheduler`.

A spin lock keeps interrupts off, so a process is only taken from its CPU
where it holds none (`Pc.interruptible`).

# What is left open

Which allocations of a `kfork` succeed and whether `kwait` can copy the
status out are arguments of the calls. Other kernel code sleeps and wakes
on channels of its own; the step `wake` is one round of a `wakeup` by such
code or by an interrupt handler. What happens to user memory and files is
not part of this model.
-/
import GemOS.Kernel.Sched

namespace GemOS

open Function Prog

-- ======== one process

/-- `if(p->state == SLEEPING) p->state = RUNNABLE`. -/
def Proc.woken (x : Proc) : Proc :=
  { x with state := if x.state = .sleeping then .runnable else x.state }

/-- What `kkill` does to the process it finds. -/
def Proc.marked (x : Proc) : Proc := { x.woken with killed := true }

/-- `freeproc`, without the channel. -/
def Proc.freed (x : Proc) : Proc := { x.cleared with trapframe := none }

-- ======== the state

/-- How the allocations of a `kfork` go. -/
inductive ForkMem
  | noTrapframe
  | noPagetable (trapframe : Nat)
  /-- `uvmcopy` fails. -/
  | noCopy (trapframe root : Nat)
  | ok (trapframe root : Nat)
  deriving DecidableEq

/-- Where a process is, with its local variables. -/
inductive Pc
  /-- In user space, or in kernel code that is not part of the model. -/
  | user
  /-- The loop of `allocproc`. -/
  | alloc (mem : ForkMem) (i : Nat)
  /-- `kfork` before `acquire(&wait_lock)`. -/
  | adopt (np : ProcId) (pid : Int)
  /-- `kfork` before the second `acquire(&np->lock)`. -/
  | ready (np : ProcId) (pid : Int)
  /-- `kexit` before `acquire(&wait_lock)`. -/
  | exit (status : Int)
  /-- The loop of `reparent`. -/
  | reparent (status : Int) (i : Nat)
  /-- `wakeup(initproc)` in round `i` of it. -/
  | reparentWake (status : Int) (i j : Nat)
  /-- `wakeup(p->parent)`. -/
  | exitWake (status : Int) (parent : Option ProcId) (j : Nat)
  /-- `kexit` before `acquire(&p->lock)`. -/
  | exitEnd (status : Int)
  /-- Behind the last `sched()` of `kexit`. -/
  | dead
  /-- `kwait` before it has `wait_lock`. -/
  | wait (addr : Nat) (copied : Bool)
  /-- The loop over the table in `kwait`. -/
  | waitScan (addr : Nat) (copied havekids : Bool) (i : Nat)
  /-- `if(!havekids || killed(p))`. -/
  | waitTest (addr : Nat) (copied havekids : Bool)
  /-- `sleep(p, &wait_lock)`. -/
  | waitSleep (addr : Nat) (copied : Bool)
  /-- The loop of `kkill`. -/
  | kill (pid : Int) (i : Nat)
  /-- `sys_getppid` before `acquire(&p->lock)`. -/
  | ppid
  /-- Before `parent = p->parent`. -/
  | ppidRead
  /-- Before `acquire(&parent->lock)`. -/
  | ppidPid (parent : ProcId)
  /-- Before `release(&p->lock)`. -/
  | ppidEnd (ppid : Int)
  deriving DecidableEq

/-- How a process gets its CPU back: it runs, or comes out of the `swtch`
of `yield`, of that of `sleep`, or into `forkret`. -/
inductive Ctx
  | run
  | yielded
  | slept
  | fresh
  deriving DecidableEq

/-- What a CPU does. -/
inductive CpuMode
  /-- The loops of `scheduler`. -/
  | scan (level : Fin mlfqLevels) (start : ProcId) (i : Nat)
  | exec (p : ProcId)
  /-- Behind the `swtch` in `scheduler`. -/
  | back (p : ProcId)
  deriving DecidableEq

/-- A spin lock keeps interrupts off. -/
def Pc.interruptible : Pc → Bool
  | .user | .alloc .. | .adopt .. | .ready .. | .exit _ | .wait .. | .kill ..
  | .ppid => true
  | _ => false

/-- Outside of any call of the model. -/
def Pc.isUser : Pc → Bool
  | .user => true
  | _ => false

/-- Where a process may sleep: `kexit` closes files. -/
def Pc.maySleep : Pc → Bool
  | .user | .exit _ => true
  | _ => false

/-- Any number of CPUs `γ` and the process table. -/
structure Smp (γ : Type) where
  proc : ProcId → Proc
  chan : ProcId → Option Chan
  nextpid : Int
  initproc : ProcId
  mlfqHead : Fin mlfqLevels → ProcId
  /-- Which CPU holds `p->lock`. -/
  plock : ProcId → Option γ
  /-- Which process holds `wait_lock`. -/
  waitLock : Option ProcId
  /-- `c->proc`. -/
  cproc : γ → Option ProcId
  mode : γ → CpuMode
  pc : ProcId → Pc
  ctx : ProcId → Ctx

/-- What an observer of the calls sees. -/
inductive SmpEvent (γ : Type)
  | picked (c : γ) (p : ProcId)
  /-- `allocproc` finds a slot. -/
  | claimed (p np : ProcId)
  /-- `kfork` of `p` has made the child `np`. -/
  | forked (p np : ProcId) (pid : Int)
  /-- A process becomes a zombie. -/
  | exited (p : ProcId) (pid status : Int)
  /-- `kwait` of `p` returns the pid of `pp`. -/
  | reaped (p pp : ProcId) (pid status : Int)
  /-- `kwait` of `p` cannot copy the status of `pp` out. -/
  | notCopied (p pp : ProcId)
  /-- `kkill` of `p` marks `q` and returns 0. -/
  | marked (p q : ProcId) (pid : Int)
  /-- `sys_getppid` of `p` begins. -/
  | asks (p : ProcId)
  /-- It reads `p->parent`. -/
  | reads (p : ProcId)
  /-- It returns. -/
  | answers (p : ProcId) (ppid : Int)
  deriving DecidableEq

/-- A system call, with what the model leaves open. -/
inductive SmpCall
  | fork (mem : ForkMem)
  | exit (status : Int)
  /-- `copied`: can the status be copied out? -/
  | wait (addr : Nat) (copied : Bool)
  | kill (pid : Int)
  | getppid

/-- What can happen next. -/
inductive SmpOp (γ : Type)
  | step (c : γ)
  | call (c : γ) (k : SmpCall)
  | yield (c : γ)
  | sleep (c : γ) (chan : Chan)
  /-- A round of a `wakeup`, by an interrupt handler or by kernel code
  outside of the model. -/
  | wake (c : γ) (q : ProcId) (chan : Chan)
  /-- A round of `mlfq_boost`. -/
  | boost (c : γ) (q : ProcId)
  /-- The first part of `clockintr`. -/
  | charge (c : γ)
  /-- `syscall` counts a call, one of the model or another one. -/
  | count (c : γ)
  | setkilled (c : γ)
  /-- `growproc`, `sys_sbrk`. -/
  | resize (c : γ) (sz : Nat)
  /-- `kexec` commits to a new image. -/
  | exec (c : γ) (root sz : Nat)

inductive SmpStop
  | panic (msg : String)
  /-- A null pointer is followed. -/
  | null
  /-- It is not possible now. -/
  | blocked
  deriving DecidableEq

abbrev SmpM (γ : Type) : Type → Type := Prog (Smp γ) SmpStop (SmpEvent γ)

namespace Smp

variable {γ : Type} [DecidableEq γ]

def updProc (s : Smp γ) (p : ProcId) (f : Proc → Proc) : Smp γ :=
  { s with proc := update s.proc p (f (s.proc p)) }

def setPc (s : Smp γ) (p : ProcId) (a : Pc) : Smp γ :=
  { s with pc := update s.pc p a }

/-- Let process `p` go on at `a`. -/
def goto (p : ProcId) (a : Pc) : SmpM γ Unit := modify fun s => s.setPc p a

/-- A step that takes `p->lock`. -/
def whenFree (p : ProcId) (x : SmpM γ Unit) : SmpM γ Unit := do
  let s ← get
  if s.plock p = none then x else fault .blocked

/-- A step that takes `wait_lock`. -/
def whenWaitFree (x : SmpM γ Unit) : SmpM γ Unit := do
  let s ← get
  if s.waitLock = none then x else fault .blocked

/-- A round of a loop over the process table, or what follows the loop. -/
def eachSlot (i : Nat) (x : ProcId → SmpM γ Unit) (rest : SmpM γ Unit) : SmpM γ Unit :=
  if h : i < nproc then x ⟨i, h⟩ else rest

-- ======== scheduler

/-- The loops of `scheduler` after round `i` of a level. Behind the last
level they start again. -/
def scanNext (s : Smp γ) (level : Fin mlfqLevels) (start : ProcId) (i : Nat) :
    CpuMode :=
  if i + 1 < nproc then .scan level start (i + 1)
  else if h : level.val + 1 < mlfqLevels then
    .scan ⟨level.val + 1, h⟩ (s.mlfqHead ⟨level.val + 1, h⟩) 0
  else .scan 0 (s.mlfqHead 0) 0

/-- A process is chosen: up to its side of the `swtch`, with its lock. -/
def pick (s : Smp γ) (c : γ) (level : Fin mlfqLevels) (p : ProcId) : Smp γ :=
  { s.updProc p Proc.picked with
    plock := update s.plock p (some c)
    cproc := update s.cproc c (some p)
    mlfqHead := update s.mlfqHead level p
    mode := update s.mode c (.exec p) }

/-- A round of the inner loop of `scheduler`. -/
def scanRound (c : γ) (level : Fin mlfqLevels) (start : ProcId) (i : Nat) : SmpM γ Unit :=
  let p := slotAt start i
  whenFree p do
    let s ← get
    if (s.proc p).state = .runnable ∧ (s.proc p).level = level then
      note (.picked c p)
      modify fun s => s.pick c level p
    else
      modify fun s =>
        { s with mode := update s.mode c (s.scanNext level start i) }

/-- "Process is done running for now." -/
def switchBack (s : Smp γ) (c : γ) (p : ProcId) : Smp γ :=
  { s with
    plock := update s.plock p none
    cproc := update s.cproc c none
    mode := update s.mode c (.scan 0 (s.mlfqHead 0) 0) }

/-- Behind the `swtch` to `p`, in `yield`, `sleep` or `forkret`. -/
def resume (s : Smp γ) (p : ProcId) : Smp γ :=
  { s with
    chan := if s.ctx p = .slept then update s.chan p none else s.chan
    plock := update s.plock p none
    ctx := update s.ctx p .run }

/-- The process that gives its CPU away takes its lock and changes its
state. -/
def leave (s : Smp γ) (c : γ) (p : ProcId) (f : Proc → Proc) (k : Ctx) : Smp γ :=
  { s.updProc p f with
    plock := update s.plock p (some c)
    ctx := update s.ctx p k }

/-- `sched`; of the locks that `noff` counts, the model has two. -/
def sched (c : γ) (p : ProcId) : SmpM γ Unit := do
  let s ← get
  if s.plock p ≠ some c then fault (.panic "sched p->lock")
  else if s.waitLock = some p then fault (.panic "sched locks")
  else if (s.proc p).state = .running then fault (.panic "sched RUNNING")
  else modify fun s => { s with mode := update s.mode c (.back p) }

def yield (c : γ) (p : ProcId) : SmpM γ Unit :=
  whenFree p do
    modify fun s => s.leave c p Proc.yielded .yielded
    sched c p

/-- `sleep` up to `sched()`. -/
def goSleep (s : Smp γ) (c : γ) (p : ProcId) (chan : Chan) : Smp γ :=
  { s.leave c p (fun q => { q with state := .sleeping }) .slept with
    chan := update s.chan p (some chan) }

/-- `sleep` with a lock that is not part of the model. -/
def sleep (c : γ) (p : ProcId) (chan : Chan) : SmpM γ Unit :=
  whenFree p do
    modify fun s => s.goSleep c p chan
    sched c p

-- ======== wakeup

/-- A round of `wakeup` under `q->lock`. -/
def wakeOne (s : Smp γ) (q : ProcId) (chan : Option Chan) : Smp γ :=
  s.updProc q fun x => if s.chan q = chan then x.woken else x

/-- A round of `wakeup` by CPU `c`. -/
def wakeRound (c : γ) (q : ProcId) (chan : Option Chan) : SmpM γ Unit := do
  let s ← get
  if s.cproc c = some q then return ()
  else whenFree q (modify fun s => s.wakeOne q chan)

-- ======== kfork

def freeproc (s : Smp γ) (q : ProcId) : Smp γ :=
  { s.updProc q Proc.freed with
    chan := update s.chan q none }

/-- `allocproc` behind `found`. The context is set up after the allocations;
nothing looks at it before. -/
def claim (s : Smp γ) (np : ProcId) : Smp γ :=
  { s.updProc np fun x => x.claimed s.nextpid with
    nextpid := s.nextpid + 1
    pc := update s.pc np .user
    ctx := update s.ctx np .fresh }

/-- The rest of `kfork` while it holds `np->lock`. -/
def forkFound (p np : ProcId) (mem : ForkMem) : SmpM γ Unit := do
  note (.claimed p np)
  modify fun s => s.claim np
  match mem with
  | .noTrapframe => do
    modify fun s => s.freeproc np
    goto p .user
  | .noPagetable tf => do
    modify fun s => s.updProc np fun x => { x with trapframe := some tf }
    modify fun s => s.freeproc np
    goto p .user
  | .noCopy tf root => do
    modify fun s => s.updProc np fun x =>
      { x with trapframe := some tf, pagetable := some root }
    modify fun s => s.freeproc np
    goto p .user
  | .ok tf root => do
    modify fun s => s.updProc np fun x =>
      { x with
        trapframe := some tf, pagetable := some root, sz := (s.proc p).sz }
    let s ← get
    goto p (.adopt np (s.proc np).pid)

/-- A round of `allocproc`. -/
def allocRound (p : ProcId) (mem : ForkMem) (i : Nat) : SmpM γ Unit :=
  eachSlot i (fun np => whenFree np do
      let s ← get
      if (s.proc np).state = .unused then forkFound p np mem
      else goto p (.alloc mem (i + 1)))
    (goto p .user)

/-- `np->parent = p` under `wait_lock`. -/
def adopt (p np : ProcId) (pid : Int) : SmpM γ Unit :=
  whenWaitFree do
    modify fun s => s.updProc np fun x => { x with parent := some p }
    goto p (.ready np pid)

/-- `np->state = RUNNABLE` under `np->lock`. -/
def ready (p np : ProcId) (pid : Int) : SmpM γ Unit :=
  whenFree np do
    note (.forked p np pid)
    modify fun s => s.updProc np fun x => { x with state := .runnable }
    goto p .user

-- ======== kexit

/-- `acquire(&wait_lock)` by `p`, which goes on at `a`. -/
def takeWaitLock (p : ProcId) (a : Pc) : SmpM γ Unit :=
  whenWaitFree do
    modify fun s => { s with waitLock := some p }
    goto p a

/-- A round of `reparent`. -/
def reparentRound (p : ProcId) (status : Int) (i : Nat) : SmpM γ Unit :=
  eachSlot i (fun pp => do
      let s ← get
      if (s.proc pp).parent = some p then
        modify fun s => s.updProc pp fun x =>
          { x with parent := some s.initproc }
        goto p (.reparentWake status i 0)
      else goto p (.reparent status (i + 1)))
    (do
      let s ← get
      goto p (.exitWake status (s.proc p).parent 0))

/-- A round of `wakeup(initproc)` in round `i` of `reparent`. -/
def reparentWakeRound (c : γ) (p : ProcId) (status : Int) (i j : Nat) : SmpM γ Unit :=
  eachSlot j (fun q => do
      let s ← get
      wakeRound c q (some (.proc s.initproc))
      goto p (.reparentWake status i (j + 1)))
    (goto p (.reparent status (i + 1)))

/-- A round of `wakeup(p->parent)`. -/
def exitWakeRound (c : γ) (p : ProcId) (status : Int)
    (parent : Option ProcId) (j : Nat) : SmpM γ Unit :=
  eachSlot j (fun q => do
      wakeRound c q (parent.map Chan.proc)
      goto p (.exitWake status parent (j + 1)))
    (goto p (.exitEnd status))

/-- `kexit` from `acquire(&p->lock)` on. -/
def exitEnd (c : γ) (p : ProcId) (status : Int) : SmpM γ Unit :=
  whenFree p do
    let s ← get
    note (.exited p (s.proc p).pid status)
    modify fun s =>
      { s.leave c p (fun x => { x with xstate := status, state := .zombie })
          .yielded with
        waitLock := none
        pc := update s.pc p .dead }
    sched c p

-- ======== kwait

/-- `release(&wait_lock)` and the return. -/
def waitReturn (p : ProcId) : SmpM γ Unit := do
  modify fun s => { s with waitLock := none }
  goto p .user

/-- A round of the loop over the table. -/
def waitRound (p : ProcId) (addr : Nat) (copied havekids : Bool) (i : Nat) : SmpM γ Unit :=
  eachSlot i (fun pp => do
      let s ← get
      if (s.proc pp).parent = some p then
        whenFree pp do
          if (s.proc pp).state = .zombie then
            if addr ≠ 0 ∧ ¬ copied then
              note (.notCopied p pp)
              waitReturn p
            else
              note (.reaped p pp (s.proc pp).pid (s.proc pp).xstate)
              modify fun s => s.freeproc pp
              waitReturn p
          else goto p (.waitScan addr copied true (i + 1))
      else goto p (.waitScan addr copied havekids (i + 1)))
    (goto p (.waitTest addr copied havekids))

/-- `if(!havekids || killed(p))`. -/
def waitTest (p : ProcId) (addr : Nat) (copied havekids : Bool) : SmpM γ Unit :=
  if havekids then
    whenFree p do
      let s ← get
      if (s.proc p).killed then waitReturn p
      else goto p (.waitSleep addr copied)
  else waitReturn p

/-- `sleep(p, &wait_lock)`; it has to get `wait_lock` again. -/
def waitSleep (c : γ) (p : ProcId) (addr : Nat) (copied : Bool) : SmpM γ Unit :=
  whenFree p do
    modify fun s =>
      { s.goSleep c p (.proc p) with
        waitLock := none
        pc := update s.pc p (.wait addr copied) }
    sched c p

-- ======== kkill and getppid

/-- A round of `kkill`. -/
def killRound (p : ProcId) (pid : Int) (i : Nat) : SmpM γ Unit :=
  eachSlot i (fun q => whenFree q do
      let s ← get
      if (s.proc q).pid = pid then
        note (.marked p q pid)
        modify fun s => s.updProc q Proc.marked
        goto p .user
      else goto p (.kill pid (i + 1)))
    (goto p .user)

/-- `acquire(&p->lock)` in `sys_getppid`. -/
def ppidLock (c : γ) (p : ProcId) : SmpM γ Unit :=
  whenFree p do
    modify fun s => { s with plock := update s.plock p (some c) }
    goto p .ppidRead

/-- `parent = p->parent`. -/
def ppidRead (p : ProcId) : SmpM γ Unit := do
  note (.reads p)
  let s ← get
  match (s.proc p).parent with
  | none => fault .null
  | some q => goto p (.ppidPid q)

/-- `ppid = parent->pid` under `parent->lock`. -/
def ppidPid (p q : ProcId) : SmpM γ Unit :=
  whenFree q do
    let s ← get
    goto p (.ppidEnd (s.proc q).pid)

def ppidEnd (p : ProcId) (ppid : Int) : SmpM γ Unit := do
  note (.answers p ppid)
  modify fun s => { s with plock := update s.plock p none }
  goto p .user

-- ======== the system

/-- The next step of a process in a call. -/
def procStep (c : γ) (p : ProcId) : Pc → SmpM γ Unit
  | .user => fault .blocked
  | .alloc mem i => allocRound p mem i
  | .adopt np pid => adopt p np pid
  | .ready np pid => ready p np pid
  | .exit status => takeWaitLock p (.reparent status 0)
  | .reparent status i => reparentRound p status i
  | .reparentWake status i j => reparentWakeRound c p status i j
  | .exitWake status parent j => exitWakeRound c p status parent j
  | .exitEnd status => exitEnd c p status
  | .dead => fault (.panic "zombie exit")
  | .wait addr copied => takeWaitLock p (.waitScan addr copied false 0)
  | .waitScan addr copied havekids i => waitRound p addr copied havekids i
  | .waitTest addr copied havekids => waitTest p addr copied havekids
  | .waitSleep addr copied => waitSleep c p addr copied
  | .kill pid i => killRound p pid i
  | .ppid => ppidLock c p
  | .ppidRead => ppidRead p
  | .ppidPid q => ppidPid p q
  | .ppidEnd ppid => ppidEnd p ppid

/-- The next step of CPU `c`. -/
def cpuStep (c : γ) : SmpM γ Unit := do
  let s ← get
  match s.mode c with
  | .scan level start i => scanRound c level start i
  | .back p => modify fun s => s.switchBack c p
  | .exec p =>
    if s.ctx p = .run then procStep c p (s.pc p)
    else modify fun s => s.resume p

/-- The beginning of a call. -/
def start (p : ProcId) : SmpCall → SmpM γ Unit
  | .fork mem => goto p (.alloc mem 0)
  | .exit status => do
    let s ← get
    if p = s.initproc then fault (.panic "init exiting")
    else goto p (.exit status)
  | .wait addr copied => goto p (.wait addr copied)
  | .kill pid => goto p (.kill pid 0)
  | .getppid => do
    note (.asks p)
    goto p .ppid

/-- The process on CPU `c`, if it is out of `swtch`. -/
def current (s : Smp γ) (c : γ) : Option ProcId :=
  match s.mode c with
  | .exec p => if s.ctx p = .run then some p else none
  | _ => none

/-- What the process on `c` does, where its place allows it. -/
def running (c : γ) (ok : Pc → Bool) (x : ProcId → SmpM γ Unit) : SmpM γ Unit := do
  let s ← get
  match s.current c with
  | none => fault .blocked
  | some p => if ok (s.pc p) then x p else fault .blocked

/-- Are the interrupts of `c` on? -/
def intrOn (s : Smp γ) (c : γ) : Bool :=
  match s.mode c with
  | .scan .. => true
  | .back _ => false
  | .exec p => s.ctx p == .run && (s.pc p).interruptible

def prog : SmpOp γ → SmpM γ Unit
  | .step c => cpuStep c
  | .call c k => running c Pc.isUser fun p => start p k
  | .yield c => running c Pc.interruptible fun p => Smp.yield c p
  | .sleep c chan => running c Pc.maySleep fun p => Smp.sleep c p chan
  | .wake c q chan => do
    let s ← get
    if s.intrOn c then wakeRound c q (some chan) else fault .blocked
  | .boost c q => do
    let s ← get
    if s.intrOn c then
      whenFree q (modify fun s => s.updProc q Proc.boosted)
    else fault .blocked
  | .charge c => running c Pc.interruptible fun p =>
    modify fun s => s.updProc p Proc.charged
  | .count c => running c Pc.isUser fun p =>
    modify fun s => s.updProc p Proc.called
  | .setkilled c => running c Pc.isUser fun p =>
    whenFree p (modify fun s => s.updProc p fun x => { x with killed := true })
  | .resize c sz => running c Pc.isUser fun p =>
    modify fun s => s.updProc p fun x => { x with sz := sz }
  | .exec c root sz => running c Pc.isUser fun p =>
    modify fun s => s.updProc p fun x =>
      { x with pagetable := some root, sz := sz }

/-- After `userinit`: the first process is in slot 0. -/
def boot (tf root : Nat) : Smp γ :=
  { proc := update (fun _ => Proc.initial) 0
      { Proc.initial.claimed 1 with
        trapframe := some tf, pagetable := some root, state := .runnable }
    chan := fun _ => none
    nextpid := 2
    initproc := 0
    mlfqHead := fun _ => 0
    plock := fun _ => none
    waitLock := none
    cproc := fun _ => none
    mode := fun _ => .scan 0 0 0
    pc := fun _ => .user
    ctx := fun _ => .fresh }

/-- The states the CPUs start from. -/
def Booted (s : Smp γ) : Prop := ∃ tf root, s = boot tf root

/-- A run in which every operation meets `cond`; nothing else changes the
state. -/
abbrev Runs (cond : SmpOp γ → Prop) (n : Notes (SmpEvent γ) (Smp γ)) (s : Smp γ) : Prop :=
  Course Booted (fun _ _ => False) prog (fun i _ _ => cond i) n s

end Smp

end GemOS
