/-
The file table (`file.c`) and the file system calls (`sysfile.c`), with
what `fork`, `exec`, `exit` and `wait` do to files (`proc.c`, `exec.c`).

A call runs from beginning to end before the next; its strings have been
fetched. What the rest of the kernel decides is a parameter: whether an
entry appended to a directory finds a block, whether memory can be
allocated, whether `copyout` succeeds and whether the image of `exec` can
be built. The contents of files and pipes play no part here.
-/
import GemOS.Kernel.Namespace

namespace GemOS

open Function Prog

namespace Vfs

def setFile (f : FileId) (g : File → File) : VfsM Unit :=
  modify fun s =>
    { s with ftable := update s.ftable f (g (s.ftable f)) }

def setProc (p : ProcId) (g : Proc → Proc) : VfsM Unit :=
  modify fun s => { s with proc := update s.proc p (g (s.proc p)) }

/-- `p->ofile[fd] = o`. -/
def setOfile (p : ProcId) (fd : Fd) (o : Option FileId) : VfsM Unit :=
  setProc p fun q => { q with ofile := update q.ofile fd o }

-- ======== the file table

def filealloc : VfsM (Option FileId) := do
  let s ← get
  match (List.finRange nfile).find? fun f => (s.ftable f).ref == 0 with
  | some f => do
    setFile f fun file => { file with ref := 1 }
    return some f
  | none => return none

def filedup (f : FileId) : VfsM Unit := do
  let s ← get
  if (s.ftable f).ref < 1 then fault (.panic "filedup")
  else setFile f fun file => { file with ref := file.ref + 1 }

/-- `pipeclose` is about the pipe only. -/
def fileclose (f : FileId) : VfsM Unit := do
  let s ← get
  if (s.ftable f).ref < 1 then fault (.panic "fileclose")
  else if (s.ftable f).ref - 1 > 0 then
    setFile f fun file => { file with ref := file.ref - 1 }
  else
    setFile f fun _ => { type := .none, ref := 0 }
    match (s.ftable f).type with
    | .inode ip => iput ip
    | .device ip => iput ip
    | .none => return ()
    | .pipe => return ()

/-- The first free descriptor. -/
def fdalloc (p : ProcId) (f : FileId) : VfsM (Option Fd) := do
  let s ← get
  match (List.finRange nofile).find? fun fd =>
      ((s.proc p).ofile fd).isNone with
  | some fd => do
    setOfile p fd (some f)
    return some fd
  | none => return none

/-- `argfd`. -/
def argfd (p : ProcId) (fd : Int) : VfsM (Option (Fd × FileId)) := do
  let s ← get
  if h : 0 ≤ fd ∧ fd < nofile then
    let fd : Fd := ⟨fd.toNat, by omega⟩
    return ((s.proc p).ofile fd).map fun f => (fd, f)
  else return none

-- ======== descriptors

def sysDup (p : ProcId) (fd : Int) : VfsM Int := do
  let a ← argfd p fd
  match a with
  | none => return -1
  | some (_, f) => do
    let r ← fdalloc p f
    match r with
    | none => return -1
    | some fd => do
      filedup f
      return fd.val

def sysClose (p : ProcId) (fd : Int) : VfsM Int := do
  let a ← argfd p fd
  match a with
  | none => return -1
  | some (fd, f) => do
    setOfile p fd none
    fileclose f
    return 0

/-- `mem`: does `kalloc` succeed? -/
def pipealloc (mem : Bool) : VfsM (Option (FileId × FileId)) := do
  let a ← filealloc
  match a with
  | none => return none
  | some f0 => do
    let b ← filealloc
    match b with
    | none => do
      fileclose f0
      return none
    | some f1 => do
      if mem then
        setFile f0 fun file => { file with type := .pipe }
        setFile f1 fun file => { file with type := .pipe }
        return some (f0, f1)
      else
        fileclose f0
        fileclose f1
        return none

/-- `copied`: do the two `copyout`s succeed? -/
def sysPipe (p : ProcId) (mem copied : Bool) : VfsM Int := do
  let r ← pipealloc mem
  match r with
  | none => return -1
  | some (rf, wf) => do
    let a ← fdalloc p rf
    match a with
    | none => do
      fileclose rf
      fileclose wf
      return -1
    | some fd0 => do
      let b ← fdalloc p wf
      match b with
      | none => do
        setOfile p fd0 none
        fileclose rf
        fileclose wf
        return -1
      | some fd1 => do
        if copied then return 0
        else
          setOfile p fd0 none
          setOfile p fd1 none
          fileclose rf
          fileclose wf
          return -1

-- ======== names

/-- The fields `create` sets in a new inode. -/
def initNode (e : InodeId) (major minor : Int16) : VfsM Unit := do
  let s ← get
  setNode (s.itable e).inum fun d =>
    { d with major := major, minor := minor, nlink := 1 }

def setNlink (e : InodeId) (f : UInt16 → UInt16) : VfsM Unit := do
  let s ← get
  setNode (s.itable e).inum fun d => { d with nlink := f d.nlink }

/-- `dp->nlink++`. -/
def raiseNlink (e : InodeId) : VfsM Unit := do
  let s ← get
  note (.raises (s.itable e).inum)
  setNlink e (· + 1)

/-- The entries `.` and `..` of a new directory; have they been
written? -/
def createDots (ip dp : InodeId) (room : Nat → Bool) : VfsM Bool := do
  let s ← get
  let a ← dirlink ip dot (s.itable ip).inum (room 0)
  if a then dirlink ip dotdot (s.itable dp).inum (room 1)
  else return false

/-- The end of `create` when something went wrong. -/
def createFail (ip dp : InodeId) : VfsM (Option InodeId) := do
  setNlink ip fun _ => 0
  iput ip
  iput dp
  return none

/-- `create` from the entry in the directory on. -/
def createLink (ip dp : InodeId) (name : Name) (type : IType)
    (room : Nat → Bool) : VfsM (Option InodeId) := do
  let s ← get
  let ok ← dirlink dp name (s.itable ip).inum (room 2)
  if ok then
    if type = .dir then
      raiseNlink dp
      iput dp
      return some ip
    else
      iput dp
      return some ip
  else createFail ip dp

/-- `create` when the name does not exist. -/
def createNew (dp : InodeId) (name : Name) (type : IType)
    (major minor : Int16) (room : Nat → Bool) :
    VfsM (Option InodeId) := do
  let a ← ialloc type
  match a with
  | none => do
    iput dp
    return none
  | some ip => do
    ilock ip
    initNode ip major minor
    if type = .dir then
      let ok ← createDots ip dp room
      if ok then createLink ip dp name type room
      else createFail ip dp
    else createLink ip dp name type room

def create (p : ProcId) (path : Path) (type : IType) (major minor : Int16)
    (room : Nat → Bool) : VfsM (Option InodeId) := do
  let r ← nameiparent p path
  match r with
  | none => return none
  | some (dp, name) => do
    ilock dp
    let found ← dirlookup dp name
    match found with
    | some (ip, _) => do
      iput dp
      ilock ip
      let s ← get
      if type = .file ∧ ((s.ip ip).type = .file ∨ (s.ip ip).type = .device)
      then return some ip
      else
        iput ip
        return none
    | none => createNew dp name type major minor room

abbrev oRdonly : Nat := 0x000

abbrev oCreate : Nat := 0x200

/-- `NDEV`. -/
abbrev ndev : Int16 := 10

/-- `sys_open` once it holds the inode. -/
def openInode (p : ProcId) (ip : InodeId) : VfsM Int := do
  let s ← get
  if (s.ip ip).type = .device ∧ ((s.ip ip).major < 0 ∨ ndev ≤ (s.ip ip).major) then
    iput ip
    return -1
  else
    let a ← filealloc
    match a with
    | none => do
      iput ip
      return -1
    | some f => do
      let b ← fdalloc p f
      match b with
      | none => do
        fileclose f
        iput ip
        return -1
      | some fd => do
        setFile f fun file =>
          { file with
            type := if (s.ip ip).type = .device then .device ip
              else .inode ip }
        return fd.val

/-- `itrunc` with `O_TRUNC` is about the contents only. -/
def sysOpen (p : ProcId) (path : Path) (omode : Nat) (room : Nat → Bool) : VfsM Int := do
  if omode &&& oCreate ≠ 0 then
    let r ← create p path .file 0 0 room
    match r with
    | none => return -1
    | some ip => openInode p ip
  else
    let r ← namei p path
    match r with
    | none => return -1
    | some ip => do
      ilock ip
      let s ← get
      if (s.ip ip).type = .dir ∧ omode ≠ oRdonly then
        iput ip
        return -1
      else openInode p ip

/-- `sys_mkdir` and `sys_mknod`. -/
def sysCreate (p : ProcId) (path : Path) (type : IType)
    (major minor : Int16) (room : Nat → Bool) : VfsM Int := do
  let r ← create p path type major minor room
  match r with
  | none => return -1
  | some ip => do
    iput ip
    return 0

def sysMkdir (p : ProcId) (path : Path) (room : Nat → Bool) : VfsM Int :=
  sysCreate p path .dir 0 0 room

def sysMknod (p : ProcId) (path : Path) (major minor : Int16) (room : Nat → Bool) : VfsM Int :=
  sysCreate p path .device major minor room

/-- The label `bad` of `sys_link`. -/
def linkBad (ip : InodeId) : VfsM Int := do
  ilock ip
  setNlink ip (· - 1)
  iput ip
  return -1

def sysLink (p : ProcId) (old new : Path) (room : Bool) : VfsM Int := do
  let r ← namei p old
  match r with
  | none => return -1
  | some ip => do
    ilock ip
    let s ← get
    if (s.ip ip).type = .dir then
      iput ip
      return -1
    else
      raiseNlink ip
      let r ← nameiparent p new
      match r with
      | none => linkBad ip
      | some (dp, name) => do
        ilock dp
        let s ← get
        if (s.itable dp).dev ≠ (s.itable ip).dev then
          iput dp
          linkBad ip
        else
          let ok ← dirlink dp name (s.itable ip).inum room
          if ok then
            iput dp
            iput ip
            return 0
          else
            iput dp
            linkBad ip

/-- Is the directory empty except for `.` and `..`? -/
def isdirempty (ents : List Dirent) : Bool :=
  (ents.drop 2).all fun de => de.inum == 0

/-- `sys_unlink` once it has found the entry. -/
def unlinkEntry (dp ip : InodeId) (off : Nat) : VfsM Int := do
  let s ← get
  let de : Dirent := ⟨0, []⟩
  setNode (s.itable dp).inum fun d => { d with ents := d.ents.set off de }
  if (s.ip ip).type = .dir then
    setNlink dp (· - 1)
    iput dp
    setNlink ip (· - 1)
    iput ip
    return 0
  else
    iput dp
    setNlink ip (· - 1)
    iput ip
    return 0

def sysUnlink (p : ProcId) (path : Path) : VfsM Int := do
  let r ← nameiparent p path
  match r with
  | none => return -1
  | some (dp, name) => do
    ilock dp
    if name = dot ∨ name = dotdot then
      iput dp
      return -1
    else
      let found ← dirlookup dp name
      match found with
      | none => do
        iput dp
        return -1
      | some (ip, off) => do
        ilock ip
        let s ← get
        -- `nlink` is a `short`
        if (s.ip ip).nlink = 0 ∨ 0x8000 ≤ (s.ip ip).nlink then
          fault (.panic "unlink: nlink < 1")
        else if (s.ip ip).type = .dir ∧ !isdirempty (s.ip ip).ents then
          iput ip
          iput dp
          return -1
        else unlinkEntry dp ip off

def sysChdir (p : ProcId) (path : Path) : VfsM Int := do
  let r ← namei p path
  match r with
  | none => return -1
  | some ip => do
    ilock ip
    let s ← get
    if (s.ip ip).type ≠ .dir then
      iput ip
      return -1
    else
      match (s.proc p).cwd with
      | none => fault .hang
      | some old => do
        iput old
        setProc p fun q => { q with cwd := some ip }
        return 0

-- ======== processes

/-- What `kexec` does to files; `loaded`: is the image complete? -/
def kexec (p : ProcId) (path : Path) (loaded : Bool) : VfsM Int := do
  let r ← namei p path
  match r with
  | none => return -1
  | some ip => do
    ilock ip
    iput ip
    return if loaded then 0 else -1

/-- The loop of `kfork` over the descriptors. -/
def dupFiles (p np : ProcId) : List Fd → VfsM Unit
  | [] => return ()
  | fd :: fds => do
    let s ← get
    match (s.proc p).ofile fd with
    | none => dupFiles p np fds
    | some f => do
      filedup f
      setOfile np fd (some f)
      dupFiles p np fds

/-- `mem`: can the child's memory be allocated? Its slot stands for its
`pid`. -/
def kfork (p : ProcId) (mem : Bool) : VfsM Int := do
  let s ← get
  match (List.finRange nproc).find? fun q =>
      decide ((s.proc q).life = .unused) with
  | none => return -1
  | some np => do
    if mem then
      dupFiles p np (List.finRange nofile)
      let s ← get
      match (s.proc p).cwd with
      | none => fault .hang
      | some e => do
        let e ← idup e
        setProc np fun q => { q with cwd := some e, life := .live }
        return np.val
    else return -1

/-- The loop of `kexit` over the descriptors. -/
def closeFiles (p : ProcId) : List Fd → VfsM Unit
  | [] => return ()
  | fd :: fds => do
    let s ← get
    match (s.proc p).ofile fd with
    | none => closeFiles p fds
    | some f => do
      fileclose f
      setOfile p fd none
      closeFiles p fds

/-- The first process. -/
abbrev initproc : ProcId := 0

def kexit (p : ProcId) : VfsM Unit := do
  if p = initproc then fault (.panic "init exiting")
  else
    closeFiles p (List.finRange nofile)
    let s ← get
    match (s.proc p).cwd with
    | none => fault .hang
    | some e => do
      iput e
      setProc p fun q => { q with cwd := none, life := .zombie }

-- ======== the system

/-- A system call, with what the rest of the kernel decides. -/
inductive Call
  | open (path : Path) (omode : Nat) (room : Nat → Bool)
  | mkdir (path : Path) (room : Nat → Bool)
  | mknod (path : Path) (major minor : Int16) (room : Nat → Bool)
  | link (old new : Path) (room : Bool)
  | unlink (path : Path)
  | chdir (path : Path)
  | dup (fd : Int)
  | close (fd : Int)
  | pipe (mem copied : Bool)
  | fork (mem : Bool)
  | exec (path : Path) (loaded : Bool)
  | exit
  /-- `wait` reaps an exited process. -/
  | wait (q : ProcId)

def Call.body (p : ProcId) : Call → VfsM Unit
  | .open path omode room => do let _ ← sysOpen p path omode room
  | .mkdir path room => do let _ ← sysMkdir p path room
  | .mknod path major minor room => do
    let _ ← sysMknod p path major minor room
  | .link old new room => do let _ ← sysLink p old new room
  | .unlink path => do let _ ← sysUnlink p path
  | .chdir path => do let _ ← sysChdir p path
  | .dup fd => do let _ ← sysDup p fd
  | .close fd => do let _ ← sysClose p fd
  | .pipe mem copied => do let _ ← sysPipe p mem copied
  | .fork mem => do let _ ← kfork p mem
  | .exec path loaded => do let _ ← kexec p path loaded
  | .exit => kexit p
  | .wait q => do
    let s ← get
    if (s.proc q).life = .zombie then
      setProc q fun r => { r with life := .unused }
    else return ()

/-- Process `p` makes the call. -/
def Call.prog (c : ProcId × Call) : VfsM Unit := do
  let s ← get
  if (s.proc c.1).life = .live then c.2.body c.1 else fault .blocked

end Vfs

end GemOS
