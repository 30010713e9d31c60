/-
The inode table, directories and path names (`fs.c`).

An inode is a `Node`: its type, its link count and, for a directory, its
entries. How they lie in blocks is in `Kernel.Fs`. An entry of the inode
table is an `Ient`. The fields that `ilock` copies from the disk are read
from the `Node`: every change of them in `fs.c` and `sysfile.c` is followed
by `iupdate` before anything else happens, so that a valid copy says what
the disk says; `Kernel.Fs` keeps the two apart. Sleep locks are left out,
as calls run one after the other; `iunlockput` is then `iput`.

An entry appended to a directory may find no disk block. Whether it does
is a parameter `room` of `dirlink`; an entry put into a free slot needs
none.

Three places leave a note: `iput` before it frees an inode, `dirlink`
before it writes an entry, and `create` and `sys_link` before they raise a
link count.
-/
import GemOS.Kernel.Bio

namespace GemOS

open Function Prog

namespace Vfs

-- ======== the state

/-- The bytes of a path element before the NUL, at most `DIRSIZ`. -/
abbrev Name : Type := List UInt8

abbrev Path : Type := List UInt8

def dot : Name := [46]

def dotdot : Name := [46, 46]

def slash : UInt8 := 47

abbrev dirsiz : Nat := 14

abbrev rootdev : Nat := 1

abbrev rootino : Nat := 1

/-- `short type`; 0 is a free inode. -/
inductive IType
  | free
  | dir
  | file
  | device
  deriving DecidableEq

/-- `struct dirent`. -/
structure Dirent where
  inum : Nat
  name : Name
  deriving DecidableEq

/-- `struct dinode`, with the entries of a directory for its blocks. -/
structure Node where
  type : IType
  major : Int16
  minor : Int16
  nlink : UInt16
  ents : List Dirent

/-- `NINODE`. -/
abbrev ninode : Nat := 50

abbrev InodeId : Type := Fin ninode

/-- `struct inode`, what is not copied from the disk. -/
structure Ient where
  ref : Int
  dev : Nat
  inum : Nat
  valid : Bool

/-- `NFILE`. -/
abbrev nfile : Nat := 100

abbrev FileId : Type := Fin nfile

/-- The type of a file, with the inode that goes with it. -/
inductive FdType
  | none
  | pipe
  | inode (ip : InodeId)
  | device (ip : InodeId)
  deriving DecidableEq

/-- `struct file`. -/
structure File where
  type : FdType
  ref : Int

/-- `NOFILE`. -/
abbrev nofile : Nat := 16

abbrev Fd : Type := Fin nofile

inductive Life
  | unused
  | live
  | zombie
  deriving DecidableEq

/-- `struct proc`, what concerns files. -/
structure Proc where
  life : Life
  ofile : Fd → Option FileId
  cwd : Option InodeId

end Vfs

structure Vfs where
  ninodes : Nat
  node : Nat → Vfs.Node
  itable : Vfs.InodeId → Vfs.Ient
  ftable : Vfs.FileId → Vfs.File
  proc : ProcId → Vfs.Proc

namespace Vfs

/-- What is about to happen to an inode. -/
inductive Note
  /-- `iput` frees the inode of a table entry. -/
  | freed (e : InodeId)
  /-- A link count is raised. -/
  | raises (i : Nat)
  /-- A directory gets an entry. -/
  | adds (d : Nat)

abbrev VfsM : Type → Type := Prog Vfs Halt Note

def setNode (i : Nat) (f : Node → Node) : VfsM Unit :=
  modify fun s => { s with node := update s.node i (f (s.node i)) }

def setEnt (e : InodeId) (f : Ient → Ient) : VfsM Unit :=
  modify fun s =>
    { s with itable := update s.itable e (f (s.itable e)) }

/-- The inode of a table entry. -/
def ip (s : Vfs) (e : InodeId) : Node := s.node (s.itable e).inum

-- ======== the inode table

def iget (dev inum : Nat) : VfsM InodeId := do
  let s ← get
  match (List.finRange ninode).find? fun e =>
      decide (0 < (s.itable e).ref) && (s.itable e).dev == dev && (s.itable e).inum == inum with
  | some e => do
    setEnt e fun ip => { ip with ref := ip.ref + 1 }
    return e
  | none =>
    match (List.finRange ninode).find? fun e =>
        (s.itable e).ref == 0 with
    | some e => do
      setEnt e fun _ =>
        { ref := 1, dev := dev, inum := inum, valid := false }
      return e
    | none => fault (.panic "iget: no inodes")

def idup (e : InodeId) : VfsM InodeId := do
  setEnt e fun ip => { ip with ref := ip.ref + 1 }
  return e

def ilock (e : InodeId) : VfsM Unit := do
  let s ← get
  if (s.itable e).ref < 1 then fault (.panic "ilock")
  else if (s.itable e).valid then return ()
  else
    setEnt e fun ip => { ip with valid := true }
    if (s.ip e).type = .free then fault (.panic "ilock: no type")

/-- `itrunc(ip); ip->type = 0; iupdate(ip); ip->valid = 0`. -/
def ifree (e : InodeId) : VfsM Unit := do
  note (.freed e)
  let s ← get
  setNode (s.itable e).inum fun d => { d with type := .free, ents := [] }
  setEnt e fun ip => { ip with valid := false }

def iput (e : InodeId) : VfsM Unit := do
  let s ← get
  if (s.itable e).ref = 1 ∧ (s.itable e).valid ∧ (s.ip e).nlink = 0 then
    ifree e
    setEnt e fun ip => { ip with ref := ip.ref - 1 }
  else setEnt e fun ip => { ip with ref := ip.ref - 1 }

/-- `ialloc`; `none` if there is no free inode. -/
def ialloc (type : IType) : VfsM (Option InodeId) := do
  let s ← get
  match (List.range' 1 (s.ninodes - 1)).find? fun inum =>
      decide ((s.node inum).type = .free) with
  | some inum => do
    setNode inum fun _ =>
      { type := type, major := 0, minor := 0, nlink := 0, ents := [] }
    let e ← iget rootdev inum
    return some e
  | none => return none

-- ======== directories

/-- The index of the first used entry with this name. -/
def findName (ents : List Dirent) (name : Name) : Option Nat :=
  ents.findIdx? fun de => decide (de.inum ≠ 0) && de.name == name

/-- The inode with this name in the directory, and the index of the
entry. -/
def dirlookup (dp : InodeId) (name : Name) : VfsM (Option (InodeId × Nat)) := do
  let s ← get
  if (s.ip dp).type ≠ .dir then fault (.panic "dirlookup not DIR")
  else
    match findName (s.ip dp).ents name with
    | none => return none
    | some off => do
      let e ← iget (s.itable dp).dev (((s.ip dp).ents[off]?).map Dirent.inum |>.getD 0)
      return some (e, off)

/-- The directory's entries with one more, in the first free slot or at
the end; `none` if there is no block for it. -/
def addEntry (ents : List Dirent) (de : Dirent) (room : Bool) : Option (List Dirent) :=
  match ents.findIdx? fun de => de.inum == 0 with
  | some off => some (ents.set off de)
  | none => if room then some (ents ++ [de]) else none

/-- Was the entry written? -/
def dirlink (dp : InodeId) (name : Name) (inum : Nat) (room : Bool) : VfsM Bool := do
  let found ← dirlookup dp name
  match found with
  | some (ip, _) => do
    iput ip
    return false
  | none => do
    let s ← get
    -- `de.inum` is a `ushort`
    match addEntry (s.ip dp).ents ⟨inum % 2 ^ 16, name⟩ room with
    | some ents => do
      note (.adds (s.itable dp).inum)
      setNode (s.itable dp).inum fun d => { d with ents := ents }
      return true
    | none => return false

-- ======== paths

/-- The rest of the path and its first element. -/
def skipelem (path : Path) : Option (Path × Name) :=
  let path := path.dropWhile (· == slash)
  if path.isEmpty then none
  else
    some ((path.dropWhile (· != slash)).dropWhile (· == slash),
      (path.takeWhile (· != slash)).take dirsiz)

/-- What `skipelem` leaves in the buffer `name`: `DIRSIZ` bytes of the
element, or all of it and a NUL. -/
def storeName (name elem : List UInt8) : List UInt8 :=
  if dirsiz ≤ elem.length then elem.take dirsiz ++ name.drop dirsiz
  else elem ++ 0 :: name.drop (elem.length + 1)

/-- `skipelem` on memory: the bytes from the cursor on, with their NUL,
and the buffer. -/
def skipelemAt (path name : List UInt8) : Option (List UInt8 × List UInt8) :=
  let path := path.dropWhile (· == slash)
  if path.headD 0 = 0 then none
  else
    let s := path
    let path := s.dropWhile fun b => b != slash && b != 0
    some (path.dropWhile (· == slash),
      storeName name (s.takeWhile fun b => b != slash && b != 0))

/-- After the loop of `namex`. -/
def namexEnd (nameiparent : Bool) (ip : InodeId) (name : Name) :
    VfsM (Option (InodeId × Name)) := do
  if nameiparent then
    iput ip
    return none
  else return some (ip, name)

/-- The loop of `namex`, at most once for each byte of the path. -/
def namexLoop (nameiparent : Bool) : Nat → InodeId → Path → Name → VfsM (Option (InodeId × Name))
  | 0, ip, _, name => namexEnd nameiparent ip name
  | n + 1, ip, path, name =>
    match skipelem path with
    | none => namexEnd nameiparent ip name
    | some (path, name) => do
      ilock ip
      let s ← get
      if (s.ip ip).type ≠ .dir then
        iput ip
        return none
      else if nameiparent ∧ path = [] then return some (ip, name)
      else
        let next ← dirlookup ip name
        match next with
        | none => do
          iput ip
          return none
        | some (next, _) => do
          iput ip
          namexLoop nameiparent n next path name

/-- Where a path starts. -/
def namexStart (p : ProcId) (path : Path) : VfsM InodeId := do
  let s ← get
  if path.head? = some slash then iget rootdev rootino
  else
    match (s.proc p).cwd with
    | some e => idup e
    | none => fault .hang

def namex (p : ProcId) (path : Path) (nameiparent : Bool) : VfsM (Option (InodeId × Name)) := do
  let ip ← namexStart p path
  namexLoop nameiparent path.length ip path []

def namei (p : ProcId) (path : Path) : VfsM (Option InodeId) := do
  let r ← namex p path false
  return r.map Prod.fst

def nameiparent (p : ProcId) (path : Path) : VfsM (Option (InodeId × Name)) := namex p path true

end Vfs

end GemOS
