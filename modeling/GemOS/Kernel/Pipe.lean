/-
Pipes (`pipe.c`), as any number of processes use one of them at once.

# Granularity

`pi->lock` is held from `acquire` to `release` or `sleep`, so what
another process can see of a call is where it stands: outside the lock,
inside it, or asleep. Inside, one round of a loop of the source is one
step. Nobody else can touch the pipe between two rounds, but a `kill`
can come in between, since `killed` takes only the lock of the process;
it can also come within a round, between `killed` and `sleep`.

A process that was woken has to get the lock again: it is outside.

# The caller's memory

`copyin` and `copyout` of one byte either succeed or fail. A call brings
its own answers: `src i` is the byte at `addr + i` or nothing, `dst i`
says whether `addr + i` can be written.
-/
import GemOS.Kernel.State

namespace GemOS

open Function Prog

abbrev pipesize : Nat := 512

/-- `struct pipe`, without its lock. -/
structure Pipe where
  data : Nat → UInt8
  nread : UInt32
  nwrite : UInt32
  readopen : Bool
  writeopen : Bool

/-- The addresses processes sleep on. -/
inductive PipeChan
  | nread
  | nwrite
  deriving DecidableEq

/-- A call in progress, with its local variables. -/
inductive PipeCall
  /-- The loop of `pipewrite`. -/
  | write (src : Nat → Option UInt8) (n : Int) (i : Nat)
  /-- The first loop of `piperead`, which waits for bytes. -/
  | await (dst : Nat → Bool) (n : Int)
  /-- The second loop of `piperead`, which copies. -/
  | copy (dst : Nat → Bool) (n : Int) (i : Nat)

/-- Where a process stands. -/
inductive PipePos
  | idle
  | outside (c : PipeCall)
  | inside (c : PipeCall)
  | asleep (chan : PipeChan) (c : PipeCall)

/-- A pipe and the processes that use it. -/
structure PipeSys where
  pipe : Pipe
  lock : Option ProcId
  pos : ProcId → PipePos
  killed : ProcId → Bool

/-- What an observer of the calls sees. -/
inductive PipeEvent
  /-- A call of `t` begins. -/
  | called (t : ProcId)
  /-- `pipewrite` of `t` stores a byte. -/
  | put (t : ProcId) (ch : UInt8)
  /-- `piperead` of `t` has copied a byte out. -/
  | got (t : ProcId) (ch : UInt8)
  /-- The call of `t` returns. -/
  | returned (t : ProcId) (r : Int)
  deriving DecidableEq

/-- The steps of the system; a step that is not possible now faults. -/
abbrev PipeM : Type → Type := Prog PipeSys Unit PipeEvent

-- ======== sleep and wakeup

def PipeSys.setPos (s : PipeSys) (t : ProcId) (a : PipePos) : PipeSys :=
  { s with pos := update s.pos t a }

/-- `wakeup` as one process sees it. -/
def PipePos.woken (chan : PipeChan) : PipePos → PipePos
  | .asleep ch c => if ch = chan then .outside c else .asleep ch c
  | a => a

/-- `wakeup(chan)`. -/
def PipeSys.wakeup (s : PipeSys) (chan : PipeChan) : PipeSys :=
  { s with pos := fun t => (s.pos t).woken chan }

/-- `sleep(chan, &pi->lock)`, up to giving the processor away. -/
def PipeSys.sleep (s : PipeSys) (t : ProcId) (chan : PipeChan) (c : PipeCall) : PipeSys :=
  { s.setPos t (.asleep chan c) with lock := none }

/-- `release(&pi->lock); return r`. -/
def pipeLeave (t : ProcId) (r : Int) : PipeM Unit := do
  modify fun s => { s.setPos t .idle with lock := none }
  note (.returned t r)

-- ======== pipewrite

/-- `pi->data[pi->nwrite++ % PIPESIZE] = ch`. -/
def Pipe.put (p : Pipe) (ch : UInt8) : Pipe :=
  { p with
    data := update p.data (p.nwrite.toNat % pipesize) ch
    nwrite := p.nwrite + 1 }

/-- The end of `pipewrite`. -/
def pipewriteDone (t : ProcId) (i : Nat) : PipeM Unit := do
  modify fun s => s.wakeup .nread
  pipeLeave t i

/-- One round of the loop of `pipewrite`. -/
def pipewriteRound (t : ProcId) (src : Nat → Option UInt8) (n : Int) (i : Nat) : PipeM Unit := do
  let s ← get
  if (i : Int) < n then
    if s.pipe.readopen = false ∨ s.killed t then pipeLeave t (-1)
    else if s.pipe.nwrite = s.pipe.nread + UInt32.ofNat pipesize then
      modify fun s => (s.wakeup .nread).sleep t .nwrite (.write src n i)
    else
      match src i with
      | none => pipewriteDone t i
      | some ch =>
        modify fun s => { s.setPos t (.inside (.write src n (i + 1))) with
          pipe := s.pipe.put ch }
        note (.put t ch)
  else pipewriteDone t i

-- ======== piperead

/-- `pi->data[pi->nread % PIPESIZE]`. -/
def Pipe.front (p : Pipe) : UInt8 := p.data (p.nread.toNat % pipesize)

/-- `pi->nread++`. -/
def Pipe.advance (p : Pipe) : Pipe := { p with nread := p.nread + 1 }

/-- The end of `piperead`. -/
def pipereadDone (t : ProcId) (r : Int) : PipeM Unit := do
  modify fun s => s.wakeup .nwrite
  pipeLeave t r

/-- One round of the waiting loop of `piperead`. -/
def pipereadAwait (t : ProcId) (dst : Nat → Bool) (n : Int) : PipeM Unit := do
  let s ← get
  if s.pipe.nread = s.pipe.nwrite ∧ s.pipe.writeopen then
    if s.killed t then pipeLeave t (-1)
    else modify fun s => s.sleep t .nread (.await dst n)
  else modify fun s => s.setPos t (.inside (.copy dst n 0))

/-- One round of the copying loop of `piperead`. -/
def pipereadCopy (t : ProcId) (dst : Nat → Bool) (n : Int) (i : Nat) : PipeM Unit := do
  let s ← get
  if (i : Int) < n then
    if s.pipe.nread = s.pipe.nwrite then pipereadDone t i
    else if dst i then
      modify fun s => { s.setPos t (.inside (.copy dst n (i + 1))) with
        pipe := s.pipe.advance }
      note (.got t s.pipe.front)
    else pipereadDone t (if i = 0 then -1 else i)
  else pipereadDone t i

-- ======== pipeclose

/-- `pipeclose`, one section; the pipe is gone when both ends are. -/
def pipeclose (writable : Bool) : PipeM Unit := do
  let s ← get
  if s.lock.isSome then fault ()
  else if writable then
    modify fun s =>
      { s.wakeup .nread with pipe := { s.pipe with writeopen := false } }
  else
    modify fun s =>
      { s.wakeup .nwrite with pipe := { s.pipe with readopen := false } }

-- ======== the system

/-- What can happen next. -/
inductive PipeOp
  /-- An idle process calls `pipewrite`. -/
  | write (t : ProcId) (src : Nat → Option UInt8) (n : Int)
  /-- An idle process calls `piperead`. -/
  | read (t : ProcId) (dst : Nat → Bool) (n : Int)
  /-- A process gets the lock. -/
  | acquire (t : ProcId)
  /-- The process that has the lock does a round. -/
  | round (t : ProcId)
  | kill (t : ProcId)
  /-- The process that has the lock does a round and is killed in it: after
  it asked `killed`, before it sleeps or ends the round. -/
  | killDuring (t : ProcId)
  /-- The slot of an idle process gets a new one. -/
  | reuse (t : ProcId)
  | close (writable : Bool)

/-- The start of a call, up to waiting for the lock. -/
def pipeCall (t : ProcId) (c : PipeCall) : PipeM Unit := do
  let s ← get
  match s.pos t with
  | .idle =>
    modify fun s => s.setPos t (.outside c)
    note (.called t)
  | _ => fault ()

/-- `acquire(&pi->lock)`. -/
def pipeAcquire (t : ProcId) : PipeM Unit := do
  let s ← get
  match s.pos t, s.lock with
  | .outside c, none =>
    modify fun s => { s.setPos t (.inside c) with lock := some t }
  | _, _ => fault ()

def pipeRound (t : ProcId) : PipeM Unit := do
  let s ← get
  match s.pos t with
  | .inside (.write src n i) => pipewriteRound t src n i
  | .inside (.await dst n) => pipereadAwait t dst n
  | .inside (.copy dst n i) => pipereadCopy t dst n i
  | _ => fault ()

/-- A killed process does not sleep on (`kkill`). -/
def PipePos.roused : PipePos → PipePos
  | .asleep _ c => .outside c
  | a => a

def PipeOp.prog : PipeOp → PipeM Unit
  | .write t src n => pipeCall t (.write src n 0)
  | .read t dst n => pipeCall t (.await dst n)
  | .acquire t => pipeAcquire t
  | .round t => pipeRound t
  | .kill t => modify fun s =>
    { s.setPos t (s.pos t).roused with
      killed := update s.killed t true }
  -- what the round did after the question is not undone: a process that
  -- went to sleep sleeps on
  | .killDuring t => do
    pipeRound t
    modify fun s => { s with killed := update s.killed t true }
  | .reuse t => do
    let s ← get
    match s.pos t with
    | .idle => modify fun s =>
      { s with killed := update s.killed t false }
    | _ => fault ()
  | .close writable => pipeclose writable

/-- A pipe as `pipealloc` leaves it, nobody using it yet. What is in the
buffer then is junk. -/
structure PipeFresh (s : PipeSys) : Prop where
  nread : s.pipe.nread = 0
  nwrite : s.pipe.nwrite = 0
  readopen : s.pipe.readopen = true
  writeopen : s.pipe.writeopen = true
  lock : s.lock = none
  pos : ∀ t, s.pos t = .idle

/-- The runs of the system from a new pipe. -/
abbrev PipeRuns : Notes PipeEvent PipeSys → PipeSys → Prop :=
  Reach (fun _ _ => True) PipeFresh PipeOp.prog

end GemOS
