/-
The buffer cache (`bio.c`).

# Representation

A buffer is named by its place in `bcache.buf`; a buffer pointer is an
`Option BufId`, with `none` for `&bcache.head`. The links of all buffers
and of the head are the two maps `next` and `prev`. `virtio_disk_rw`
looks at the block number only, so the disk is a map from block numbers.
`refcnt` counts without a bound, and may be taken below zero.

# Sections

What the source does between `acquire` and `release` of a spin lock is
one program here, and so is each of `acquiresleep`, `releasesleep` and
the transfer of a block. `bread` and `brelse` put them together for a
caller who is not interrupted.

# How a run can stop

Block writes are atomic and reach the disk in order. `power` is how many
of them are still done before the power goes; the write after that does
not happen, and all that is left of the machine is the disk. A panic
ends a run in the same way, so both report the disk (`Stop`). `blocked`
is not an end: the caller has to wait, and the state is as before.
-/
import GemOS.Lib.CircList
import GemOS.Lib.Words
import GemOS.Kernel.State

namespace GemOS

open Function Prog

-- ======== constants

abbrev bsize : Nat := 1024

/-- Blocks that one file system operation may write. -/
abbrev maxopblocks : Nat := 10

abbrev logblocks : Nat := maxopblocks * 3

abbrev nbuf : Nat := maxopblocks * 3

-- ======== data

/-- The bytes of a block; those below `BSIZE` count. -/
abbrev Block : Type := Nat → UInt8

abbrev BufId : Type := Fin nbuf

/-- `struct buf`, without its links; `lock` is the holder of the sleep
lock. -/
structure Buf where
  valid : Bool
  dev : Nat
  blockno : Nat
  lock : Option ProcId
  refcnt : Int
  data : Block

/-- The cache, the disk behind it and the writes left. -/
structure Bcache where
  buf : BufId → Buf
  next : Option BufId → Option BufId
  prev : Option BufId → Option BufId
  disk : Nat → Block
  power : Nat

inductive Halt
  | panic (msg : String)
  | blocked
  | hang
  | powerLoss
  deriving DecidableEq

/-- Why a run stops, and what it leaves: the disk, and how many writes
were not used. -/
structure Stop where
  why : Halt
  disk : Nat → Block
  left : Nat

abbrev BioM : Type → Type := Prog Bcache Stop Empty

def halt {α : Type} (w : Halt) : BioM α := do
  let c ← get
  fault ⟨w, c.disk, c.power⟩

def Bcache.updBuf (c : Bcache) (b : BufId) (f : Buf → Buf) : Bcache :=
  { c with buf := update c.buf b (f (c.buf b)) }

-- ======== binit

/-- One round of the loop of `binit`. -/
def Bcache.linkFirst (c : Bcache) (b : BufId) : Bcache :=
  -- b->next = bcache.head.next; b->prev = &bcache.head
  let next1 := update c.next (some b) (c.next none)
  let prev1 := update c.prev (some b) none
  -- bcache.head.next->prev = b; bcache.head.next = b
  let prev2 := update prev1 (next1 none) (some b)
  let next2 := update next1 none (some b)
  { c with next := next2, prev := prev2 }

/-- A buffer of the zeroed `bcache`. -/
def Buf.initial : Buf :=
  { valid := false, dev := 0, blockno := 0, lock := none, refcnt := 0
    data := fun _ => 0 }

/-- The cache as `binit` leaves it, on top of a disk. -/
def binit (disk : Nat → Block) (power : Nat) : Bcache :=
  (List.finRange nbuf).foldl Bcache.linkFirst
    { buf := fun _ => .initial, next := fun _ => none, prev := fun _ => none
      disk := disk, power := power }

-- ======== bget

/-- Does `b` hold the block? -/
def Buf.holds (b : Buf) (dev blockno : Nat) : Bool :=
  decide (b.dev = dev ∧ b.blockno = blockno)

def Buf.unused (b : Buf) : Bool := decide (b.refcnt = 0)

/-- A buffer taken over for another block. -/
def Buf.recycled (b : Buf) (dev blockno : Nat) : Buf :=
  { b with dev := dev, blockno := blockno, valid := false, refcnt := 1 }

/-- The section of `bget`: the buffer it is going to lock. -/
def bget (dev blockno : Nat) : BioM BufId := do
  let c ← get
  match CircList.scan c.next (fun b => (c.buf b).holds dev blockno) nbuf (c.next none) with
  | none => halt .hang
  | some (some b) =>
    modify fun c => c.updBuf b fun q => { q with refcnt := q.refcnt + 1 }
    return b
  | some none =>
    match CircList.scan c.prev (fun b => (c.buf b).unused) nbuf (c.prev none) with
    | none => halt .hang
    | some none => halt (.panic "bget: no buffers")
    | some (some b) =>
      modify fun c => c.updBuf b fun q => q.recycled dev blockno
      return b

-- ======== the rest

/-- `acquiresleep(&b->lock)` by process `t`. -/
def acquiresleep (t : ProcId) (b : BufId) : BioM Unit := do
  let c ← get
  if (c.buf b).lock.isSome then halt .blocked
  else modify fun c => c.updBuf b fun q => { q with lock := some t }

/-- The rest of `bread`: the block is read unless it is there. -/
def readIn (b : BufId) : BioM Unit := do
  let c ← get
  if (c.buf b).valid then return ()
  else modify fun c => c.updBuf b fun q =>
    { q with data := c.disk q.blockno, valid := true }

def bread (t : ProcId) (dev blockno : Nat) : BioM BufId := do
  let b ← bget dev blockno
  acquiresleep t b
  readIn b
  return b

def bwrite (t : ProcId) (b : BufId) : BioM Unit := do
  let c ← get
  if (c.buf b).lock ≠ some t then halt (.panic "bwrite")
  else if c.power = 0 then halt .powerLoss
  else modify fun c => { c with
    disk := update c.disk (c.buf b).blockno (c.buf b).data
    power := c.power - 1 }

/-- The first half of `brelse`, up to `releasesleep`. -/
def brelseUnlock (t : ProcId) (b : BufId) : BioM Unit := do
  let c ← get
  if (c.buf b).lock ≠ some t then halt (.panic "brelse")
  else modify fun c => c.updBuf b fun q => { q with lock := none }

/-- Moving a buffer to the front of the list, store by store. -/
def Bcache.toFront (c : Bcache) (b : BufId) : Bcache :=
  -- b->next->prev = b->prev; b->prev->next = b->next
  let prev1 := update c.prev (c.next (some b)) (c.prev (some b))
  let next1 := update c.next (prev1 (some b)) (c.next (some b))
  -- the four stores of `binit`
  { c with next := next1, prev := prev1 }.linkFirst b

/-- The second half of `brelse`, under `bcache.lock`. -/
def brelseUnref (b : BufId) : BioM Unit :=
  modify fun c =>
    let c := c.updBuf b fun q => { q with refcnt := q.refcnt - 1 }
    if (c.buf b).refcnt = 0 then c.toFront b else c

def brelse (t : ProcId) (b : BufId) : BioM Unit := do
  brelseUnlock t b
  brelseUnref b

def bpin (b : BufId) : BioM Unit :=
  modify fun c => c.updBuf b fun q => { q with refcnt := q.refcnt + 1 }

def bunpin (b : BufId) : BioM Unit :=
  modify fun c => c.updBuf b fun q => { q with refcnt := q.refcnt - 1 }

/-- The holder of a buffer changes its contents. -/
def storeBuf (b : BufId) (d : Block) : BioM Unit :=
  modify fun c => c.updBuf b fun q => { q with data := d }

end GemOS
