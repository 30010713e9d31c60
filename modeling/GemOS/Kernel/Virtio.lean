/-
The driver of the virtio disk (`virtio_disk.c`) and the device, as any
number of threads use it at once.

# Granularity

`disk.vdisk_lock` is held from `acquire` to `release` or `sleep`. A call of
`virtio_disk_rw` stands outside the lock, inside it or asleep; inside, one
round of one of its two loops is a step, with all that follows up to the
next loop. `virtio_disk_intr` takes the lock, does its rounds and gives the
lock back. The device takes steps of its own at any moment. It sees a chain
when `avail->idx` passes it, which is the last thing the step of
`virtio_disk_rw` does that offers it.

# The callers

`bread` and `bwrite`, the only callers, hold the sleep lock `b->lock` of
the buffer. The steps of that lock are part of the system.

# The device

The device reads the chains of the avail ring in order and completes those
it has read in any order, each once: it writes status 0 where the chain's
last descriptor points, and puts the head of the chain into the used ring.
The data it moves are left out.

Descriptor numbers are natural numbers; the indices of the rings are 16-bit
words that wrap.
-/
import GemOS.Kernel.State

namespace GemOS

open Function Prog

namespace Virtio

-- ======== the state

/-- `NUM`. -/
abbrev num : Nat := 8

/-- What a descriptor points to. -/
inductive Addr (β : Type)
  | null
  /-- `&disk.ops[i]`. -/
  | op (i : Nat)
  /-- `b->data`. -/
  | data (b : β)
  /-- `&disk.info[i].status`. -/
  | status (i : Nat)

/-- `struct virtq_desc`. -/
structure Desc (β : Type) where
  addr : Addr β
  len : Nat
  flags : UInt16
  next : Nat

/-- `VRING_DESC_F_NEXT`. -/
def descNext : UInt16 := 1

/-- `VRING_DESC_F_WRITE`. -/
def descWrite : UInt16 := 2

/-- `struct virtio_blk_req`. -/
structure BlkReq where
  type : UInt32
  reserved : UInt32
  sector : UInt64

/-- An element of `disk.info`. -/
structure Info (β : Type) where
  b : Option β
  status : UInt8

/-- `struct disk`, with the rings it points to, without its lock. -/
structure Disk (β : Type) where
  desc : Nat → Desc β
  availIdx : UInt16
  availRing : Nat → Nat
  usedIdx : UInt16
  usedRing : Nat → Nat
  free : Nat → Bool
  /-- The driver's `used_idx`. -/
  seenIdx : UInt16
  info : Nat → Info β
  ops : Nat → BlkReq

/-- Which loop a call is in; behind the first one it has its `idx`. -/
inductive Stage
  | alloc
  | wait (i0 i1 i2 : Nat)

/-- A call of `virtio_disk_rw`. -/
structure Call (β : Type) where
  b : β
  write : Bool
  stage : Stage

/-- The addresses threads sleep on. -/
inductive Chan (β : Type)
  /-- `&disk.free[0]`. -/
  | free
  | buf (b : β)
  deriving DecidableEq

/-- Where a thread stands. -/
inductive Pos (β : Type)
  | idle
  | outside (c : Call β)
  | inside (c : Call β)
  | asleep (chan : Chan β) (c : Call β)

/-- Who can have `vdisk_lock`. -/
inductive Holder (τ : Type)
  | thread (t : τ)
  | intr
  deriving DecidableEq

/-- A chain as the device has read it: its first descriptor, and where the
second and the third one point. -/
structure DevReq (β : Type) where
  head : Nat
  data : Addr β
  status : Addr β

/-- The driver, its threads and the device. -/
structure Sys (τ β : Type) where
  disk : Disk β
  /-- `b->disk`. -/
  bdisk : β → Bool
  blockno : β → UInt32
  /-- Who holds `b->lock`. -/
  block : β → Option τ
  lock : Option (Holder τ)
  pos : τ → Pos β
  /-- How far the device has read the avail ring. -/
  devIdx : UInt16
  /-- What the device works on. -/
  devWork : List (DevReq β)

/-- Why a step does not happen. -/
inductive Stop
  | panic (msg : String)
  /-- A null pointer is followed. -/
  | null
  /-- The device finds no chain of three. -/
  | malformed
  /-- A loop does not end. -/
  | endless
  /-- It is not possible now. -/
  | blocked
  deriving DecidableEq

abbrev VirtioM (τ β : Type) : Type → Type := Prog (Sys τ β) Stop Empty

variable {τ β : Type} [DecidableEq τ] [DecidableEq β]

def setDisk (f : Disk β → Disk β) : VirtioM τ β Unit :=
  modify fun s => { s with disk := f s.disk }

-- ======== sleep and wakeup

/-- `wakeup` as one thread sees it. -/
def Pos.woken (chan : Chan β) : Pos β → Pos β
  | .asleep ch c => if ch = chan then .outside c else .asleep ch c
  | a => a

def wakeup (chan : Chan β) : VirtioM τ β Unit :=
  modify fun s => { s with pos := fun t => (s.pos t).woken chan }

/-- `sleep(chan, &disk.vdisk_lock)`, up to giving the processor away. -/
def sleep (t : τ) (chan : Chan β) (c : Call β) : VirtioM τ β Unit :=
  modify fun s =>
    { s with pos := update s.pos t (.asleep chan c), lock := none }

-- ======== descriptors

def allocDesc : VirtioM τ β (Option Nat) := do
  let s ← get
  match (List.range num).find? s.disk.free with
  | some i => do
    setDisk fun d => { d with free := update d.free i false }
    return some i
  | none => return none

def freeDesc (i : Nat) : VirtioM τ β Unit := do
  let s ← get
  if num ≤ i then fault (.panic "free_desc 1")
  else if s.disk.free i then fault (.panic "free_desc 2")
  else
    setDisk fun d =>
      { d with
        desc := update d.desc i ⟨.null, 0, 0, 0⟩
        free := update d.free i true }
    wakeup .free

/-- The loop of `free_chain`. A round frees what was not free, so that
there are at most `NUM` of them. -/
def freeChain : Nat → Nat → VirtioM τ β Unit
  | 0, _ => fault .endless
  | k + 1, i => do
    let s ← get
    freeDesc i
    if (s.disk.desc i).flags &&& descNext ≠ 0 then
      freeChain k (s.disk.desc i).next
    else return ()

/-- `alloc3_desc`; `none` for -1. -/
def alloc3Desc : VirtioM τ β (Option (Nat × Nat × Nat)) := do
  match ← allocDesc with
  | none => return none
  | some i0 =>
    match ← allocDesc with
    | none => do
      freeDesc i0
      return none
    | some i1 =>
      match ← allocDesc with
      | none => do
        freeDesc i0
        freeDesc i1
        return none
      | some i2 => return some (i0, i1, i2)

-- ======== virtio_disk_rw

abbrev bsize : Nat := 1024

/-- Format the three descriptors, and `disk.info[idx[0]].b = b`. -/
def Disk.format (d : Disk β) (b : β) (sector : UInt64) (write : Bool) (i0 i1 i2 : Nat) : Disk β :=
  { d with
    ops := update d.ops i0 ⟨if write then 1 else 0, 0, sector⟩
    desc := update (update (update d.desc i0 ⟨.op i0, 16, descNext, i1⟩)
      i1 ⟨.data b, bsize, (if write then 0 else descWrite) ||| descNext, i2⟩)
      i2 ⟨.status i0, 1, descWrite, 0⟩
    info := update d.info i0 ⟨some b, 0xff⟩ }

/-- Tell the device the first index of a chain. -/
def Disk.offer (d : Disk β) (i0 : Nat) : Disk β :=
  { d with
    availRing := update d.availRing (d.availIdx.toNat % num) i0
    availIdx := d.availIdx + 1 }

/-- `uint64 sector = b->blockno * (BSIZE / 512)`, a product of 32-bit
words. -/
def Sys.sector (s : Sys τ β) (b : β) : UInt64 :=
  (s.blockno b * UInt32.ofNat (bsize / 512)).toUInt64

/-- From the format to the notification of the device. -/
def Sys.submit (s : Sys τ β) (t : τ) (b : β) (write : Bool) (i0 i1 i2 : Nat) : Sys τ β :=
  { s with
    disk := (s.disk.format b (s.sector b) write i0 i1 i2).offer i0
    bdisk := update s.bdisk b true
    pos := update s.pos t (.inside ⟨b, write, .wait i0 i1 i2⟩) }

/-- A round of the first loop, and what follows when it ends. -/
def rwAlloc (t : τ) (b : β) (write : Bool) : VirtioM τ β Unit := do
  match ← alloc3Desc with
  | none => sleep t .free ⟨b, write, .alloc⟩
  | some (i0, i1, i2) => modify fun s => s.submit t b write i0 i1 i2

/-- A round of the second loop, and what follows when it ends. -/
def rwWait (t : τ) (b : β) (write : Bool) (i0 i1 i2 : Nat) : VirtioM τ β Unit := do
  let s ← get
  if s.bdisk b then sleep t (.buf b) ⟨b, write, .wait i0 i1 i2⟩
  else
    setDisk fun d => { d with
      info := update d.info i0 { d.info i0 with b := none } }
    freeChain (num + 1) i0
    modify fun s =>
      { s with pos := update s.pos t .idle, lock := none }

def rwRound (t : τ) : VirtioM τ β Unit := do
  let s ← get
  match s.pos t with
  | .inside ⟨b, write, .alloc⟩ => rwAlloc t b write
  | .inside ⟨b, write, .wait i0 i1 i2⟩ => rwWait t b write i0 i1 i2
  | _ => fault .blocked

-- ======== virtio_disk_intr

/-- A round of `virtio_disk_intr`, or its end. -/
def intrRound : VirtioM τ β Unit := do
  let s ← get
  if s.lock ≠ some .intr then fault .blocked
  else if s.disk.seenIdx ≠ s.disk.usedIdx then
    let id := s.disk.usedRing (s.disk.seenIdx.toNat % num)
    if (s.disk.info id).status ≠ 0 then
      fault (.panic "virtio_disk_intr status")
    else
      match (s.disk.info id).b with
      | none => fault .null
      | some b => do
        modify fun s => { s with bdisk := update s.bdisk b false }
        wakeup (.buf b)
        setDisk fun d => { d with seenIdx := d.seenIdx + 1 }
  else modify fun s => { s with lock := none }

-- ======== the device

/-- The chain from descriptor `i` on, if it is one of three. -/
def Disk.readChain (d : Disk β) (i : Nat) : Option (DevReq β) :=
  let d0 := d.desc i
  let d1 := d.desc d0.next
  let d2 := d.desc d1.next
  if d0.flags &&& descNext ≠ 0 ∧ d1.flags &&& descNext ≠ 0
      ∧ d2.flags &&& descNext = 0 then some ⟨i, d1.addr, d2.addr⟩
  else none

/-- The device reads the next chain of the avail ring. -/
def devFetch : VirtioM τ β Unit := do
  let s ← get
  if s.devIdx = s.disk.availIdx then fault .blocked
  else
    match s.disk.readChain (s.disk.availRing (s.devIdx.toNat % num)) with
    | none => fault .malformed
    | some r => modify fun s =>
      { s with devWork := s.devWork ++ [r], devIdx := s.devIdx + 1 }

/-- The device writes 0 to an address. -/
def Disk.clear (d : Disk β) : Addr β → Disk β
  | .status i =>
    { d with info := update d.info i { d.info i with status := 0 } }
  | _ => d

/-- The device completes the chain with this head. -/
def devComplete (h : Nat) : VirtioM τ β Unit := do
  let s ← get
  match s.devWork.find? fun r => r.head == h with
  | none => fault .blocked
  | some r => modify fun s =>
    let d := s.disk.clear r.status
    { s with
      disk := { d with
        usedRing := update d.usedRing (d.usedIdx.toNat % num) h
        usedIdx := d.usedIdx + 1 }
      devWork := s.devWork.eraseP fun r => r.head == h }

-- ======== the system

/-- What can happen next. -/
inductive Op (τ β : Type)
  /-- `acquiresleep(&b->lock)` and `releasesleep(&b->lock)`. -/
  | acquiresleep (t : τ) (b : β)
  | releasesleep (t : τ) (b : β)
  /-- A thread that holds `b->lock` calls `virtio_disk_rw`. -/
  | rw (t : τ) (b : β) (write : Bool)
  /-- A thread gets `vdisk_lock`. -/
  | acquire (t : τ)
  /-- The thread that has it does a round. -/
  | round (t : τ)
  /-- `kkill` makes a sleeper run. -/
  | rouse (t : τ)
  /-- `virtio_disk_intr` gets `vdisk_lock`. -/
  | intr
  | intrRound
  | devFetch
  | devComplete (h : Nat)

def Pos.roused : Pos β → Pos β
  | .asleep _ c => .outside c
  | a => a

def Op.prog : Op τ β → VirtioM τ β Unit
  | .acquiresleep t b => do
    let s ← get
    match s.pos t, s.block b with
    | .idle, none =>
      modify fun s => { s with block := update s.block b (some t) }
    | _, _ => fault .blocked
  | .releasesleep t b => do
    let s ← get
    match s.pos t with
    | .idle =>
      if s.block b = some t then
        modify fun s => { s with block := update s.block b none }
      else fault .blocked
    | _ => fault .blocked
  | .rw t b write => do
    let s ← get
    match s.pos t with
    | .idle =>
      if s.block b = some t then
        modify fun s => { s with
          pos := update s.pos t (.outside ⟨b, write, .alloc⟩) }
      else fault .blocked
    | _ => fault .blocked
  | .acquire t => do
    let s ← get
    match s.pos t, s.lock with
    | .outside c, none =>
      modify fun s => { s with
        pos := update s.pos t (.inside c)
        lock := some (.thread t) }
    | _, _ => fault .blocked
  | .round t => rwRound t
  | .rouse t => modify fun s =>
    { s with pos := update s.pos t (s.pos t).roused }
  | .intr => do
    let s ← get
    if s.lock = none then modify fun s => { s with lock := some .intr }
    else fault .blocked
  | .intrRound => Virtio.intrRound
  | .devFetch => Virtio.devFetch
  | .devComplete h => Virtio.devComplete h

/-- As `virtio_disk_init` leaves it, nothing read or completed yet. The
indices are 0 then; here they have any common value. -/
structure Fresh (s : Sys τ β) : Prop where
  free : ∀ i < num, s.disk.free i = true
  devIdx : s.devIdx = s.disk.availIdx
  seenIdx : s.disk.seenIdx = s.disk.usedIdx
  devWork : s.devWork = []
  pos : ∀ t, s.pos t = .idle
  block : ∀ b, s.block b = none
  lock : s.lock = none

/-- The runs of the system. -/
abbrev Runs : Notes Empty (Sys τ β) → Sys τ β → Prop :=
  Reach (fun _ _ => True) Fresh Op.prog

end Virtio

end GemOS
