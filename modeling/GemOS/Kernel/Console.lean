/-
Console input (`console.c`): the line buffer between the keyboard and the
processes that read.

# Granularity

`cons.lock` is held in all of `consoleintr`, and in `consoleread` from
`acquire` to `release` or `sleep`. As for a pipe, a process stands outside
the lock, inside it or asleep, and one round of the loop of `consoleread`
is one step.

The readers are not killed and their buffers can be written, so that the
ways out of `consoleread` for a killed process and for a failed
`either_copyout` are left out. What is echoed is left out as well.

# The indices

`r`, `w` and `e` are `uint`s that only stand for cells modulo
`INPUT_BUF_SIZE`. They are 0 at boot; a fresh console has any common value
for them here. `n` is an `int` and `target` the same number as a `uint`,
which are compared where `n` is positive.
-/
import GemOS.Kernel.State

namespace GemOS

open Function Prog

/-- `INPUT_BUF_SIZE`. -/
abbrev inputBufSize : Nat := 128

/-- The anonymous `struct` of `console.c`, without its lock. -/
structure Cons where
  buf : Nat → UInt8
  r : UInt32
  w : UInt32
  e : UInt32

/-- `C(x)`. -/
def ctrl (x : Char) : UInt8 := UInt8.ofNat (x.toNat - '@'.toNat)

def newline : UInt8 := 10

def carriageReturn : UInt8 := 13

/-- The delete key. -/
def delKey : UInt8 := 0x7f

/-- Where a process stands, with `target` and `n` of its call. -/
inductive ConsPos
  | idle
  | outside (target n : Int)
  | inside (target n : Int)
  | asleep (target n : Int)
  deriving DecidableEq

/-- The console and the processes that read from it. -/
structure ConsSys where
  cons : Cons
  lock : Option ProcId
  pos : ProcId → ConsPos

/-- What an observer of the keyboard and the calls sees. -/
inductive ConsEvent
  /-- A character goes into the buffer. -/
  | stored (c : UInt8)
  /-- The last character is taken back. -/
  | erased
  /-- All that was typed is there for readers. -/
  | committed
  /-- A call of `t` begins. -/
  | called (t : ProcId)
  /-- The call of `t` gets a byte. -/
  | got (t : ProcId) (c : UInt8)
  /-- The call of `t` consumes a `^D`. -/
  | eof (t : ProcId)
  /-- The call of `t` for `target` bytes returns `k`. -/
  | returned (t : ProcId) (target k : Int)
  deriving DecidableEq

/-- The steps of the system; a step that is not possible now faults. -/
abbrev ConsM : Type → Type := Prog ConsSys Unit ConsEvent

-- ======== the buffer

/-- `cons.buf[cons.e++ % INPUT_BUF_SIZE] = c`. -/
def Cons.store (s : Cons) (c : UInt8) : Cons :=
  { s with
    buf := update s.buf (s.e.toNat % inputBufSize) c
    e := s.e + 1 }

/-- `cons.e--`. -/
def Cons.erase (s : Cons) : Cons := { s with e := s.e - 1 }

/-- `cons.w = cons.e`. -/
def Cons.commit (s : Cons) : Cons := { s with w := s.e }

/-- `cons.buf[cons.r % INPUT_BUF_SIZE]`. -/
def Cons.front (s : Cons) : UInt8 := s.buf (s.r.toNat % inputBufSize)

/-- `cons.r++`. -/
def Cons.advance (s : Cons) : Cons := { s with r := s.r + 1 }

/-- `cons.r--`. -/
def Cons.retreat (s : Cons) : Cons := { s with r := s.r - 1 }

/-- `cons.buf[(cons.e-1) % INPUT_BUF_SIZE]`. -/
def Cons.back (s : Cons) : UInt8 := s.buf ((s.e - 1).toNat % inputBufSize)

def setCons (f : Cons → Cons) : ConsM Unit :=
  modify fun s => { s with cons := f s.cons }

-- ======== sleep and wakeup

def ConsSys.setPos (s : ConsSys) (t : ProcId) (a : ConsPos) : ConsSys :=
  { s with pos := update s.pos t a }

def ConsPos.woken : ConsPos → ConsPos
  | .asleep target n => .outside target n
  | a => a

/-- `wakeup(&cons.r)`. -/
def ConsSys.wakeup (s : ConsSys) : ConsSys :=
  { s with pos := fun t => (s.pos t).woken }

/-- `release(&cons.lock); return target - n`. -/
def consoleLeave (t : ProcId) (target n : Int) : ConsM Unit := do
  modify fun s => { s.setPos t .idle with lock := none }
  note (.returned t target (target - n))

-- ======== consoleread

/-- One round of the loop of `consoleread`. -/
def consolereadRound (t : ProcId) (target n : Int) : ConsM Unit := do
  let s ← get
  if 0 < n then
    if s.cons.r = s.cons.w then
      modify fun s => { s.setPos t (.asleep target n) with lock := none }
    else
      setCons Cons.advance
      if s.cons.front = ctrl 'D' then
        if n < target then
          -- saved for the next call
          setCons Cons.retreat
          consoleLeave t target n
        else
          note (.eof t)
          consoleLeave t target n
      else
        note (.got t s.cons.front)
        if s.cons.front = newline then consoleLeave t target (n - 1)
        else modify fun s => s.setPos t (.inside target (n - 1))
  else consoleLeave t target n

-- ======== consoleintr

/-- The body of both ways to erase. -/
def consoleErase : ConsM Unit := do
  setCons Cons.erase
  note .erased

/-- The loop for `^U`, with a bound on the number of its rounds. -/
def killLine : Nat → ConsM Unit
  | 0 => return ()
  | k + 1 => do
    let s ← get
    if s.cons.e ≠ s.cons.w ∧ s.cons.back ≠ newline then
      consoleErase
      killLine k
    else return ()

/-- The default case: `c` is an ordinary character. -/
def consoleStore (c : UInt8) : ConsM Unit := do
  let s ← get
  if c ≠ 0 ∧ s.cons.e - s.cons.r < UInt32.ofNat inputBufSize then
    let c := if c = carriageReturn then newline else c
    setCons fun s => s.store c
    note (.stored c)
    let s ← get
    if c = newline ∨ c = ctrl 'D' ∨ s.cons.e - s.cons.r = UInt32.ofNat inputBufSize then
      modify fun s => { s.wakeup with cons := s.cons.commit }
      note .committed

def consoleintr (c : UInt8) : ConsM Unit := do
  let s ← get
  if s.lock.isSome then fault ()
  else if c = ctrl 'P' then return ()
  else if c = ctrl 'U' then killLine (s.cons.e - s.cons.w).toNat
  else if c = ctrl 'H' ∨ c = delKey then
    if s.cons.e ≠ s.cons.w then consoleErase
  else consoleStore c

-- ======== the system

/-- What can happen next. -/
inductive ConsOp
  /-- An idle process calls `consoleread`. -/
  | read (t : ProcId) (n : Int)
  /-- A process gets the lock. -/
  | acquire (t : ProcId)
  /-- The process that has the lock does a round. -/
  | round (t : ProcId)
  /-- A character arrives. -/
  | intr (c : UInt8)

def ConsOp.prog : ConsOp → ConsM Unit
  | .read t n => do
    let s ← get
    match s.pos t with
    | .idle =>
      modify fun s => s.setPos t (.outside n n)
      note (.called t)
    | _ => fault ()
  | .acquire t => do
    let s ← get
    match s.pos t, s.lock with
    | .outside target n, none =>
      modify fun s => { s.setPos t (.inside target n) with lock := some t }
    | _, _ => fault ()
  | .round t => do
    let s ← get
    match s.pos t with
    | .inside target n => consolereadRound t target n
    | _ => fault ()
  | .intr c => consoleintr c

/-- Nothing typed and nobody reading. -/
structure ConsFresh (s : ConsSys) : Prop where
  w : s.cons.w = s.cons.r
  e : s.cons.e = s.cons.r
  lock : s.lock = none
  pos : ∀ t, s.pos t = .idle

/-- The runs of the system from a fresh console. -/
abbrev ConsRuns : Notes ConsEvent ConsSys → ConsSys → Prop :=
  Reach (fun _ _ => True) ConsFresh ConsOp.prog

end GemOS
