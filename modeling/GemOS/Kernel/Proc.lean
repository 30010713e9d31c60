/-
Processes and their memory (`proc.c`, the user copies of `vm.c`,
`sys_sbrk`): creation, growth, fork, exit and wait.

Functions that the source writes in terms of `myproc()` take the
running process as `me`. Open files, the current directory and the
sleep channels are not part of this model: nothing here reads them.
-/
import GemOS.Kernel.Memsys

namespace GemOS

open Function Prog

-- ======== proc structures

/-- `init_mlfq_state`. -/
def Proc.initMlfqState (q : Proc) : Proc :=
  { q with
    level := 0
    currentTicks := 0
    timesScheduled := 0
    sliceStartSyscalls := 0
    timeSliceExpired := false
    syscallCount := 0
    ticks := fun _ => 0 }

/-- A slot just claimed by `allocproc`: new pid, `USED`, scheduling and
memory statistics reset. -/
def Proc.claimed (q : Proc) (pid : Int) : Proc :=
  { q.initMlfqState with
    pid := pid
    state := .used
    pageFaults := 0
    pagesEvicted := 0
    pagesSwappedIn := 0
    pagesSwappedOut := 0
    residentPages := 0 }

/-- What `freeproc` leaves of a slot. -/
def Proc.cleared (q : Proc) : Proc :=
  { q with
    pagetable := none
    sz := 0
    pid := 0
    parent := none
    killed := false
    xstate := 0
    state := .unused }

/-- The address of `p->trapframe`, zero when there is none. -/
def Kernel.trapframePa (s : Kernel) (p : ProcId) : Nat :=
  ((s.proc p).trapframe).getD 0

def procPagetable (p : ProcId) : K (Option Nat) := do
  match ← uvmcreate with
  | none => return none
  | some root =>
    let s ← get
    if (← mappages root trampolineVa pgsize s.trampoline (pteR ||| pteX)) < 0
    then
      uvmfree root 0
      return none
    else if (← mappages root trapframeVa pgsize (s.trapframePa p) (pteR ||| pteW)) < 0
    then
      uvmunmap root trampolineVa 1 false
      uvmfree root 0
      return none
    else return some root

def procFreepagetable (root sz : Nat) : K Unit := do
  uvmunmap root trampolineVa 1 false
  uvmunmap root trapframeVa 1 false
  uvmfree root sz

def freeproc (p : ProcId) : K Unit := do
  note (.reap p)
  let s ← get
  match (s.proc p).trapframe with
  | some tf => kfree tf
  | none => pure ()
  modify fun s => s.updProc p fun q => { q with trapframe := none }
  match (s.proc p).pagetable with
  | some root => procFreepagetable root (s.proc p).sz
  | none => pure ()
  modify fun s => s.updProc p Proc.cleared

/-- The first `UNUSED` slot. -/
def Kernel.unusedSlot (s : Kernel) : Option ProcId :=
  (List.finRange nproc).find? fun p => (s.proc p).state == .unused

def allocproc : K (Option ProcId) := do
  let s ← get
  match s.unusedSlot with
  | none => return none
  | some p =>
    modify fun s =>
      { s.updProc p fun q => q.claimed s.nextpid with
        nextpid := s.nextpid + 1 }
    let tf ← kalloc
    modify fun s => s.updProc p fun q => { q with trapframe := tf }
    if tf.isNone then
      freeproc p
      return none
    else
      let root ← procPagetable p
      modify fun s => s.updProc p fun q => { q with pagetable := root }
      if root.isNone then
        freeproc p
        return none
      else return some p

/-- `userinit`: the first process. -/
def userinit : K Unit := do
  match ← allocproc with
  | none => fault .wild
  | some p =>
    modify fun s =>
      { s.updProc p fun q => { q with state := .runnable } with initproc := p }

-- ======== growth

/-- `a + n` for a `uint64` and an `int`. -/
def addInt (a : Nat) (n : Int) : Nat := (((a : Int) + n) % 2 ^ 64).toNat

def growproc (me : ProcId) (n : Int) : K Int := do
  let s ← get
  let sz := (s.proc me).sz
  if n > 0 then
    if addInt sz n > trapframeVa then return -1
    else
      let root ← pagetableOf me
      let sz' ← uvmalloc root sz (addInt sz n) pteW
      if sz' = 0 then return -1
      else
        modify fun s => s.updProc me fun q => { q with sz := sz' }
        return 0
  else if n < 0 then
    let root ← pagetableOf me
    if addInt sz n < sz then note (.shrink me (addInt sz n)) else pure ()
    let sz' ← uvmdealloc root sz (addInt sz n)
    modify fun s => s.updProc me fun q => { q with sz := sz' }
    return 0
  else return 0

/-- `sys_sbrk`, with its two arguments; `eager` is `t == SBRK_EAGER`. -/
def sysSbrk (me : ProcId) (n : Int) (eager : Bool) : K Int := do
  let s ← get
  let addr := (s.proc me).sz
  if eager ∨ n < 0 then
    if (← growproc me n) < 0 then return -1 else return addr
  else if addInt addr n < addr then return -1
  else if addInt addr n > trapframeVa then return -1
  else
    modify fun s => s.updProc me fun q => { q with sz := addInt addr n }
    return addr

-- ======== user copies

/-- `memmove` of some bytes into a page. -/
def Kernel.writeBytes (s : Kernel) (pa off : Nat) (bs : List UInt8) : Kernel :=
  { s with
    mem := update s.mem pa fun i =>
      if off ≤ i.val then (bs[i.val - off]?).getD (s.mem pa i)
      else s.mem pa i }

/-- A little-endian word as bytes. -/
def bytesOf (w n : Nat) : List UInt8 := (List.range n).map (byteOf w)

/-- The loop of `copyout`; every round copies at least one byte, so the
length of the source bounds the rounds. -/
def copyoutLoop (me : ProcId) (root : Nat) : Nat → Nat → List UInt8 → K Int
  | 0, _, _ => return 0
  | fuel + 1, dstva, src => do
    if src.isEmpty then return 0
    else
      let va0 := pgrounddown dstva
      if maxva ≤ va0 then return -1
      else
        let pa ← walkaddr root va0
        let pa ← if pa = 0 then vmfault me root va0 else pure pa
        if pa = 0 then return -1
        else if ← walk root va0 false then
          let s ← get
          if isW (s.pte root va0) then
            let n := pgsize - (dstva - va0)
            modify fun s => s.writeBytes pa (dstva - va0) (src.take n)
            copyoutLoop me root fuel ((va0 + pgsize) % 2 ^ 64) (src.drop n)
          else return -1
        else fault .wild

def copyout (me : ProcId) (root dstva : Nat) (src : List UInt8) : K Int :=
  copyoutLoop me root src.length dstva src

/-- Some bytes of a page. -/
def Kernel.readBytes (s : Kernel) (pa off n : Nat) : List UInt8 :=
  (List.range n).map fun i =>
    if h : off + i < pgsize then s.mem pa ⟨off + i, h⟩ else 0

/-- The loop of `copyin`: the bytes read, `none` for an error. -/
def copyinLoop (me : ProcId) (root : Nat) : Nat → Nat → Nat → K (Option (List UInt8))
  | 0, _, _ => return some []
  | fuel + 1, srcva, len => do
    if len = 0 then return some []
    else
      let va0 := pgrounddown srcva
      let pa ← walkaddr root va0
      let pa ← if pa = 0 then vmfault me root va0 else pure pa
      if pa = 0 then return none
      else
        let n := min (pgsize - (srcva - va0)) len
        let s ← get
        match ← copyinLoop me root fuel ((va0 + pgsize) % 2 ^ 64) (len - n)
          with
        | none => return none
        | some rest => return some (s.readBytes pa (srcva - va0) n ++ rest)

def copyin (me : ProcId) (root srcva len : Nat) :
    K (Option (List UInt8)) := copyinLoop me root len srcva len

/-- The inner loop of `copyinstr` on the bytes of a page: what it stores,
and `got_null`. -/
def copyToNul : List UInt8 → List UInt8 × Bool
  | [] => ([], false)
  | b :: bs =>
    if b = 0 then ([0], true)
    else ((b :: (copyToNul bs).1), (copyToNul bs).2)

/-- The loop of `copyinstr`: the bytes stored, `none` for an error. A page
that is not there is an error. -/
def copyinstrLoop (root : Nat) : Nat → Nat → Nat → K (Option (List UInt8))
  | 0, _, _ => return none
  | fuel + 1, srcva, max => do
    if max = 0 then return none
    else
      let va0 := pgrounddown srcva
      let pa ← walkaddr root va0
      if pa = 0 then return none
      else
        let n := min (pgsize - (srcva - va0)) max
        let s ← get
        let (stored, gotNull) :=
          copyToNul (s.readBytes pa (srcva - va0) n)
        if gotNull then return some stored
        else
          match ← copyinstrLoop root fuel ((va0 + pgsize) % 2 ^ 64) (max - n)
            with
          | none => return none
          | some rest => return some (stored ++ rest)

def copyinstr (root srcva max : Nat) : K (Option (List UInt8)) :=
  copyinstrLoop root max srcva max

-- ======== fork, exit

/-- `*(np->trapframe) = *(p->trapframe); np->trapframe->a0 = 0`: the 288
bytes of the structure, with `a0` at offset 112. -/
def Kernel.copyTrapframe (s : Kernel) (dst src : Nat) : Kernel :=
  { s with
    mem := update s.mem dst fun i =>
      if 112 ≤ i.val ∧ i.val < 120 then 0
      else if i.val < 288 then s.mem src i
      else s.mem dst i }

def kfork (me : ProcId) : K Int := do
  match ← allocproc with
  | none => return -1
  | some np =>
    let old ← pagetableOf me
    let new ← pagetableOf np
    let s ← get
    if (← uvmcopy old new (s.proc me).sz) < 0 then
      freeproc np
      return -1
    else
      modify fun s => s.updProc np fun q => { q with sz := (s.proc me).sz }
      modify fun s => s.copyTrapframe (s.trapframePa np) (s.trapframePa me)
      modify fun s =>
        s.updProc np fun q => { q with parent := some me, state := .runnable }
      let s ← get
      return (s.proc np).pid

/-- `reparent`: the children of a process go to init. -/
def Kernel.reparent (s : Kernel) (p : ProcId) : Kernel :=
  { s with
    proc := fun pp =>
      if (s.proc pp).parent = some p then
        { s.proc pp with parent := some s.initproc }
      else s.proc pp }

def kexit (me : ProcId) (status : Int) : K Unit := do
  let s ← get
  if me = s.initproc then panic "init exiting"
  else
    modify fun s =>
      (s.reparent me).updProc me fun q =>
        { q with xstate := status, state := .zombie }

/-- The first zombie child of a process. -/
def Kernel.zombieChild (s : Kernel) (p : ProcId) : Option ProcId :=
  (List.finRange nproc).find? fun pp =>
    (s.proc pp).parent == some p && (s.proc pp).state == .zombie

/-- One scan of `kwait`: `none` when it goes to sleep for want of a
zombie. -/
def kwait (me : ProcId) (addr : Nat) : K (Option Int) := do
  let s ← get
  match s.zombieChild me with
  | some pp =>
    let pid := (s.proc pp).pid
    let copied ← if addr ≠ 0 then do
        let root ← pagetableOf me
        copyout me root addr (bytesOf (addInt 0 (s.proc pp).xstate) 4)
      else pure 0
    if copied < 0 then return some (-1)
    else
      freeproc pp
      return some pid
  | none =>
    let haskids := (List.finRange nproc).any fun pp =>
      (s.proc pp).parent == some me
    if !haskids || (s.proc me).killed then return some (-1)
    else return none

end GemOS
