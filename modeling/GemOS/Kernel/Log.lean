/-
The file system log (`log.c`).

`struct log` without its lock is `Log`; `lh.block[0..lh.n)` is the list
`lh`. What `begin_op`, `log_write` and `end_op` do under `log.lock` is a
function of the log. `commit` and `recover_from_log` run without the lock
and go through the buffer cache; they are programs over the log and the
cache, and end early when the power goes (`Kernel.Bio`).

The header block is a `struct logheader`: word 0 is `n`, word `i + 1` is
`block[i]`.
-/
import GemOS.Kernel.Bio

namespace GemOS

open Prog

/-- `struct log`. -/
structure Log where
  start : Nat
  dev : Nat
  outstanding : Int
  committing : Bool
  lh : List Nat

-- ======== under `log.lock`

/-- One round of `begin_op`; `none` if it has to sleep. -/
def Log.beginOp (l : Log) : Option Log :=
  if l.committing then none
  else if (l.lh.length : Int) + (l.outstanding + 1) * maxopblocks > logblocks
  then none
  else some { l with outstanding := l.outstanding + 1 }

/-- `log_write` of block `blockno`: does the buffer have to be pinned? -/
def Log.write (l : Log) (blockno : Nat) : Except String (Bool × Log) :=
  if l.lh.length ≥ logblocks then .error "too big a transaction"
  else if l.outstanding < 1 then .error "log_write outside of trans"
  else if blockno ∈ l.lh then .ok (false, l)
  else .ok (true, { l with lh := l.lh ++ [blockno] })

/-- The first section of `end_op`: does the caller have to commit? -/
def Log.endOp (l : Log) : Except String (Bool × Log) :=
  let l := { l with outstanding := l.outstanding - 1 }
  if l.committing then .error "log.committing"
  else if l.outstanding = 0 then .ok (true, { l with committing := true })
  else .ok (false, l)

/-- The second section of `end_op`, after `commit`. -/
def Log.committed (l : Log) : Log := { l with committing := false }

-- ======== the header

/-- Storing the block numbers from index `i` on. -/
def putBlocks : Nat → List Nat → Block → Block
  | _, [], d => d
  | i, x :: xs, d => putBlocks (i + 1) xs (setWord d (i + 1) x)

/-- The stores of `write_head` into the buffer. -/
def putHead (lh : List Nat) (d : Block) : Block :=
  putBlocks 0 lh (setWord d 0 lh.length)

/-- What `read_head` reads; `n` is an `int`. -/
def headBlocks (d : Block) : List Nat :=
  if leWord d 0 < 2 ^ 31 then
    (List.range (leWord d 0)).map fun i => leWord d (i + 1)
  else []

-- ======== the programs

/-- The log and the cache below it. -/
structure LogState where
  cache : Bcache
  log : Log

abbrev LogM : Type → Type := Prog LogState Stop Empty

def onBio {α : Type} (x : BioM α) : LogM α :=
  zoom LogState.cache (fun s c => { s with cache := c }) x

/-- `memmove(to->data, from->data, BSIZE)`. -/
def copyBuf (dst src : BufId) : BioM Unit := do
  let c ← get
  storeBuf dst (c.buf src).data

def writeHead (t : ProcId) : LogM Unit := do
  let s ← get
  let b ← onBio (bread t s.log.dev s.log.start)
  let c ← get
  onBio (storeBuf b (putHead s.log.lh (c.cache.buf b).data))
  onBio (bwrite t b)
  onBio (brelse t b)

def readHead (t : ProcId) : LogM Unit := do
  let s ← get
  let b ← onBio (bread t s.log.dev s.log.start)
  let c ← get
  modify fun s =>
    { s with log := { s.log with lh := headBlocks (c.cache.buf b).data } }
  onBio (brelse t b)

/-- The loop of `write_log` from entry `tail` on. -/
def writeLogLoop (t : ProcId) : Nat → List Nat → LogM Unit
  | _, [] => return ()
  | tail, blockno :: rest => do
    let s ← get
    let dst ← onBio (bread t s.log.dev (s.log.start + tail + 1))
    let src ← onBio (bread t s.log.dev blockno)
    onBio (copyBuf dst src)
    onBio (bwrite t dst)
    onBio (brelse t src)
    onBio (brelse t dst)
    writeLogLoop t (tail + 1) rest

def writeLog (t : ProcId) : LogM Unit := do
  let s ← get
  writeLogLoop t 0 s.log.lh

/-- The loop of `install_trans` from entry `tail` on. -/
def installTransLoop (t : ProcId) (recovering : Bool) : Nat → List Nat → LogM Unit
  | _, [] => return ()
  | tail, blockno :: rest => do
    let s ← get
    let lbuf ← onBio (bread t s.log.dev (s.log.start + tail + 1))
    let dbuf ← onBio (bread t s.log.dev blockno)
    onBio (copyBuf dbuf lbuf)
    onBio (bwrite t dbuf)
    if recovering then pure () else onBio (bunpin dbuf)
    onBio (brelse t lbuf)
    onBio (brelse t dbuf)
    installTransLoop t recovering (tail + 1) rest

def installTrans (t : ProcId) (recovering : Bool) : LogM Unit := do
  let s ← get
  installTransLoop t recovering 0 s.log.lh

/-- `log.lh.n = 0`. -/
def clearHead : LogM Unit :=
  modify fun s => { s with log := { s.log with lh := [] } }

def commit (t : ProcId) : LogM Unit := do
  let s ← get
  if 0 < s.log.lh.length then
    writeLog t
    writeHead t
    installTrans t false
    clearHead
    writeHead t
  else return ()

def recoverFromLog (t : ProcId) : LogM Unit := do
  readHead t
  installTrans t true
  clearHead
  writeHead t

/-- The machine after a start with this disk, just before
`recover_from_log`. -/
def bootLog (start dev : Nat) (disk : Nat → Block) (power : Nat) :
    LogState :=
  ⟨binit disk power, ⟨start, dev, 0, false, []⟩⟩

end GemOS
