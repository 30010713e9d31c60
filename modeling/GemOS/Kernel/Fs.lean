/-
Blocks, inodes and file contents (`fs.c`, up to `writei`).

A block is read and written through the buffer cache and the log, which
have models of their own (`Kernel.Bio`, `Kernel.Log`). Seen from here they
come to one disk: `bread`, a change of the data and `brelse` change the
block, and `log_write` leaves the block's number as a note. The bitmap and
the inodes lie on that disk as bytes; the in-memory inodes are indexed by
`inum`, as the inode table holds at most one of each.

`either_copyin` and `either_copyout` may fail. Whether they do, and how
many bytes a failing copy has moved, is part of a `Source` or a `Sink`.
-/
import GemOS.Kernel.Bio
import GemOS.Lib.Bits

namespace GemOS

namespace Fs

open Function Prog

-- ======== the layout

/-- `struct superblock`, what the functions below read of it. -/
structure Superblock where
  size : Nat
  ninodes : Nat
  inodestart : Nat
  bmapstart : Nat

abbrev ndirect : Nat := 12

/-- `BSIZE / sizeof(uint)`. -/
abbrev nindirect : Nat := 256

abbrev maxfile : Nat := ndirect + nindirect

/-- Inodes per block. -/
abbrev ipb : Nat := 16

/-- Bitmap bits per block. -/
abbrev bpb : Nat := 8192

/-- Block containing inode `i`. -/
def Superblock.iblock (sb : Superblock) (i : Nat) : Nat :=
  i / ipb + sb.inodestart

/-- Block of the free map containing the bit for block `b`. -/
def Superblock.bblock (sb : Superblock) (b : Nat) : Nat :=
  b / bpb + sb.bmapstart

-- ======== the inodes

/-- `struct dinode`. The shorts are the 16 bits of the field. -/
structure Dinode where
  type : Nat
  major : Nat
  minor : Nat
  nlink : Nat
  size : Nat
  /-- `addrs[0..NDIRECT]`. -/
  addrs : Nat → Nat

/-- `struct inode`, without its lock, its number and its reference
count. -/
structure Inode extends Dinode where
  valid : Bool

/-- Word `j` of a `struct dinode`. -/
def Dinode.word (d : Dinode) (j : Nat) : Nat :=
  if j = 0 then d.type + 2 ^ 16 * d.major
  else if j = 1 then d.minor + 2 ^ 16 * d.nlink
  else if j = 2 then d.size
  else d.addrs (j - 3)

/-- The inode in slot `k` of a block. -/
def getDinode (data : Block) (k : Nat) : Dinode :=
  let w := fun j => leWord data (k * 16 + j)
  { type := w 0 % 2 ^ 16, major := w 0 / 2 ^ 16
    minor := w 1 % 2 ^ 16, nlink := w 1 / 2 ^ 16
    size := w 2, addrs := fun a => if a ≤ ndirect then w (a + 3) else 0 }

/-- The block with the inode in slot `k` overwritten. -/
def putDinode (data : Block) (k : Nat) (d : Dinode) : Block :=
  setWords data (k * 16) 16 d.word

-- ======== the state

structure FsState where
  sb : Superblock
  blk : Nat → Block
  inode : Nat → Inode

/-- `log_write` leaves the number of the block. -/
abbrev FsM : Type → Type := Prog FsState Halt Nat

/-- `bread`, the change `f` of the data, `brelse`. -/
def stored (b : Nat) (f : Block → Block) : FsM Unit :=
  modify fun s => { s with blk := update s.blk b (f (s.blk b)) }

/-- The same with `log_write` before `brelse`. -/
def logged (b : Nat) (f : Block → Block) : FsM Unit := do
  stored b f
  note b

/-- `ip->… = …`. -/
def setInode (i : Nat) (f : Inode → Inode) : FsM Unit :=
  modify fun s =>
    { s with inode := update s.inode i (f (s.inode i)) }

-- ======== blocks

def bzero (b : Nat) : FsM Unit := logged b fun _ _ => 0

/-- The outer loop of `balloc` from block `b` on; the inner loop is the
search for the first clear bit. -/
def ballocLoop : Nat → Nat → FsM Nat
  | 0, _ => return 0
  | n + 1, b => do
    let s ← get
    if b < s.sb.size then
      match (List.range (min bpb (s.sb.size - b))).find?
          fun bi => !bitAt (s.blk (s.sb.bblock b)) bi with
      | some bi => do
        logged (s.sb.bblock b) fun data => setBit data bi
        bzero (b + bi)
        return b + bi
      | none => ballocLoop n (b + bpb)
    else return 0

def balloc : FsM Nat := do
  let s ← get
  ballocLoop (s.sb.size / bpb + 1) 0

def bfree (b : Nat) : FsM Unit := do
  let s ← get
  let bi := b % bpb
  if bitAt (s.blk (s.sb.bblock b)) bi then
    logged (s.sb.bblock b) fun data => clearBit data bi
  else fault (.panic "freeing free block")

-- ======== inodes

/-- `ialloc` up to its `iget`, from `inum` on, with `n` inodes to try. -/
def iallocLoop (type : Nat) : Nat → Nat → FsM Nat
  | 0, _ => return 0
  | n + 1, inum => do
    let s ← get
    if (getDinode (s.blk (s.sb.iblock inum)) (inum % ipb)).type = 0 then
      logged (s.sb.iblock inum) fun data =>
        putDinode data (inum % ipb)
          { type := type, major := 0, minor := 0, nlink := 0, size := 0
            addrs := fun _ => 0 }
      return inum
    else iallocLoop type n (inum + 1)

/-- The number of the inode, 0 if there is no free one. -/
def ialloc (type : Nat) : FsM Nat := do
  let s ← get
  iallocLoop type (s.sb.ninodes - 1) 1

def iupdate (i : Nat) : FsM Unit := do
  let s ← get
  logged (s.sb.iblock i) fun data =>
    putDinode data (i % ipb) (s.inode i).toDinode

def ilock (i : Nat) : FsM Unit := do
  let s ← get
  if (s.inode i).valid then return ()
  else
    let d := getDinode (s.blk (s.sb.iblock i)) (i % ipb)
    setInode i fun _ => { d with valid := true }
    if d.type = 0 then fault (.panic "ilock: no type")

-- ======== content

/-- The block at `ip->addrs[k]`, allocated if necessary. -/
def bmapAddr (i k : Nat) : FsM Nat := do
  let s ← get
  let addr := (s.inode i).addrs k
  if addr = 0 then
    let addr ← balloc
    if addr = 0 then return 0
    else
      setInode i fun ip =>
        { ip with addrs := update ip.addrs k addr }
      return addr
  else return addr

/-- The block of position `bn` of the inode, allocated if necessary; 0 if
there is no space. -/
def bmap (i bn : Nat) : FsM Nat := do
  if bn < ndirect then bmapAddr i bn
  else if bn - ndirect < nindirect then
    let ind ← bmapAddr i ndirect
    if ind = 0 then return 0
    else
      let s ← get
      let addr := leWord (s.blk ind) (bn - ndirect)
      if addr = 0 then
        let addr ← balloc
        if addr = 0 then return 0
        else
          logged ind fun data => setWord data (bn - ndirect) addr
          return addr
      else return addr
  else fault (.panic "bmap: out of range")

/-- The first loop of `itrunc`, over the direct addresses `ks`. -/
def itruncDirect (i : Nat) : List Nat → FsM Unit
  | [] => return ()
  | k :: ks => do
    let s ← get
    let addr := (s.inode i).addrs k
    if addr = 0 then itruncDirect i ks
    else
      bfree addr
      setInode i fun ip =>
        { ip with addrs := update ip.addrs k 0 }
      itruncDirect i ks

/-- The second loop of `itrunc`, over the words `js` of the indirect
block. -/
def itruncIndirect (ind : Nat) : List Nat → FsM Unit
  | [] => return ()
  | j :: js => do
    let s ← get
    let addr := leWord (s.blk ind) j
    if addr = 0 then itruncIndirect ind js
    else
      bfree addr
      itruncIndirect ind js

def itrunc (i : Nat) : FsM Unit := do
  itruncDirect i (List.range ndirect)
  let s ← get
  let ind := (s.inode i).addrs ndirect
  if ind = 0 then
    setInode i fun ip => { ip with size := 0 }
    iupdate i
  else
    itruncIndirect ind (List.range nindirect)
    bfree ind
    setInode i fun ip =>
      { ip with addrs := update ip.addrs ndirect 0 }
    setInode i fun ip => { ip with size := 0 }
    iupdate i

/-- `iput` of the last reference: `ip->ref` is 1 and drops to 0. -/
def iputLast (i : Nat) : FsM Unit := do
  let s ← get
  if (s.inode i).valid ∧ (s.inode i).nlink = 0 then
    itrunc i
    setInode i fun ip => { ip with type := 0 }
    iupdate i
    setInode i fun ip => { ip with valid := false }

-- ======== reading, writing

/-- What `either_copyin` does for the bytes from `tot` on: it copies them,
or fails after some. -/
structure Source where
  bytes : Nat → UInt8
  stops : Nat → Option Nat

/-- Does `either_copyout` fail for the bytes from `tot` on? -/
abbrev Sink : Type := Nat → Bool

/-- `n` bytes of a block overwritten from `o` on. -/
def putBytes (data : Block) (o n : Nat) (bytes : Nat → UInt8) : Block :=
  fun j => if o ≤ j ∧ j < o + n then bytes (j - o) else data j

/-- The loop of `readi`, which has read `out` so far; `none` is a
failed copy. -/
def readiLoop (i n : Nat) (dst : Sink) :
    Nat → Nat → Nat → List UInt8 → FsM (Option (List UInt8))
  | 0, _, _, out => return some out
  | fuel + 1, tot, off, out => do
    if tot < n then
      let addr ← bmap i (off / bsize)
      if addr = 0 then return some out
      else
        let s ← get
        let m := min (n - tot) (bsize - off % bsize)
        if dst tot then return none
        else
          readiLoop i n dst fuel (tot + m) (off + m)
            (out ++ (List.range m).map fun j =>
              s.blk addr (off % bsize + j))
    else return some out

/-- The bytes read, `none` for the result -1. -/
def readi (i : Nat) (dst : Sink) (off n : Nat) :
    FsM (Option (List UInt8)) := do
  let s ← get
  if off > (s.inode i).size ∨ (off + n) % 2 ^ 32 < off then return some []
  else
    let n :=
      if (off + n) % 2 ^ 32 > (s.inode i).size then (s.inode i).size - off
      else n
    readiLoop i n dst n 0 off []

/-- The loop of `writei`; it ends with `tot` and `off`. -/
def writeiLoop (i n : Nat) (src : Source) :
    Nat → Nat → Nat → FsM (Nat × Nat)
  | 0, tot, off => return (tot, off)
  | fuel + 1, tot, off => do
    if tot < n then
      let addr ← bmap i (off / bsize)
      if addr = 0 then return (tot, off)
      else
        let m := min (n - tot) (bsize - off % bsize)
        match src.stops tot with
        | some k => do
          -- the buffer is released as the failed copy left it
          stored addr fun data =>
            putBytes data (off % bsize) (min k m)
              fun j => src.bytes (tot + j)
          return (tot, off)
        | none => do
          logged addr fun data =>
            putBytes data (off % bsize) m fun j => src.bytes (tot + j)
          writeiLoop i n src fuel (tot + m) (off + m)
    else return (tot, off)

/-- The number of bytes written, `none` for the result -1. -/
def writei (i : Nat) (src : Source) (off n : Nat) : FsM (Option Nat) := do
  let s ← get
  if off > (s.inode i).size ∨ (off + n) % 2 ^ 32 < off then return none
  else if (off + n) % 2 ^ 32 > maxfile * bsize then return none
  else
    let (tot, off) ← writeiLoop i n src n 0 off
    setInode i fun ip =>
      { ip with size := if off > ip.size then off else ip.size }
    iupdate i
    return some tot

-- ======== the operations

/-- What is done to an inode that the caller holds. -/
inductive FileOp
  | read (i : Nat) (dst : Sink) (off n : UInt32)
  | write (i : Nat) (src : Source) (off n : UInt32)
  | trunc (i : Nat)
  /-- `ip->nlink = n; iupdate(ip)`. -/
  | setLinks (i : Nat) (n : UInt16)
  /-- The last reference to the inode is dropped. -/
  | put (i : Nat)
  /-- The entry of the inode table is recycled. -/
  | recycle (i : Nat)
  | alloc (type : UInt16)

/-- `ilock`, then the work on the inode; there are `sb.ninodes` of them. -/
def onInode {α : Type} (i : Nat) (x : FsM α) : FsM Unit := do
  let s ← get
  if i < s.sb.ninodes then
    ilock i
    let _ ← x
    return ()
  else fault .blocked

def FileOp.prog : FileOp → FsM Unit
  | .read i dst off n => onInode i (readi i dst off.toNat n.toNat)
  | .write i src off n => onInode i (writei i src off.toNat n.toNat)
  | .trunc i => onInode i (itrunc i)
  | .setLinks i n => onInode i do
      setInode i fun ip => { ip with nlink := n.toNat }
      iupdate i
  | .put i => do
    let s ← get
    if i < s.sb.ninodes then iputLast i else fault .blocked
  | .recycle i => setInode i fun ip => { ip with valid := false }
  | .alloc type => do
    let _ ← ialloc type.toNat

end Fs

end GemOS
