/-
`kexec` (`exec.c`): a new image is built in a page table of its own and
swapped in at the end.

The file system is a parameter: an `Exe` says what `readi` returns for
the ELF header, for a program header at an offset and for a stretch of
a segment, `none` standing for a short read. Both failure phases share
the `bad` label, which frees the new table up to the size reached so
far; each phase therefore returns that size along with its outcome.
-/
import GemOS.Kernel.Proc

namespace GemOS

open Prog

/-- The fields of `struct elfhdr` that `kexec` reads. -/
structure ElfHdr where
  magic : Nat
  entry : Nat
  phoff : Nat
  phnum : Nat

/-- `struct proghdr`, the fields that `kexec` reads. -/
structure ProgHdr where
  type : Nat
  flags : Nat
  off : Nat
  vaddr : Nat
  filesz : Nat
  memsz : Nat

/-- An executable, as the reads of `kexec` see it. -/
structure Exe where
  elf : Option ElfHdr
  ph : Nat → Option ProgHdr
  bytes : Nat → Nat → Option (List UInt8)

abbrev elfMagic : Nat := 0x464C457F

abbrev elfProgLoad : Nat := 1

/-- `sizeof(struct proghdr)`. -/
abbrev phSize : Nat := 56

abbrev maxArg : Nat := 32

abbrev userStack : Nat := 1

def flags2perm (flags : Nat) : Nat :=
  (if flags &&& 1 ≠ 0 then pteX else 0) ||| (if flags &&& 2 ≠ 0 then pteW else 0)

/-- The loop of `loadseg`, by the pages still to read; `i` is the offset
reached. -/
def loadsegLoop (exe : Exe) (root va off sz : Nat) : Nat → Nat → K Int
  | 0, _ => return 0
  | n + 1, i => do
    let pa ← walkaddr root (va + i)
    if pa = 0 then panic "loadseg: address should exist"
    else
      match exe.bytes ((off + i) % 2 ^ 32) (min (sz - i) pgsize) with
      | none => return -1
      | some bs =>
        modify fun s => s.writeBytes pa 0 bs
        loadsegLoop exe root va off sz n (i + pgsize)

def loadseg (exe : Exe) (root va off sz : Nat) : K Int :=
  loadsegLoop exe root va off sz ((sz + (pgsize - 1)) / pgsize) 0

/-- "Load program into memory": the outcome and the size reached. -/
def loadProgram (exe : Exe) (root phoff : Nat) : Nat → Nat → Nat → K (Bool × Nat)
  | 0, _, sz => return (true, sz)
  | n + 1, i, sz => do
    match exe.ph ((phoff + i * phSize) % 2 ^ 32) with
    | none => return (false, sz)
    | some ph =>
      if ph.type ≠ elfProgLoad then loadProgram exe root phoff n (i + 1) sz
      else if ph.memsz < ph.filesz then return (false, sz)
      else if (ph.vaddr + ph.memsz) % 2 ^ 64 < ph.vaddr then
        return (false, sz)
      else if ph.vaddr % pgsize ≠ 0 then return (false, sz)
      else
        let sz1 ← uvmalloc root sz ((ph.vaddr + ph.memsz) % 2 ^ 64) (flags2perm ph.flags)
        if sz1 = 0 then return (false, sz)
        else if (← loadseg exe root ph.vaddr (ph.off % 2 ^ 32) (ph.filesz % 2 ^ 32)) < 0 then
          return (false, sz1)
        else loadProgram exe root phoff n (i + 1) sz1

/-- "Copy argument strings into new stack": the stack pointer and the
string addresses, last first, or `none` for `goto bad`. -/
def pushArgs (me : ProcId) (root stackbase : Nat) :
    List (List UInt8) → Nat → List Nat → K (Option (Nat × List Nat))
  | [], sp, ustack => return some (sp, ustack)
  | arg :: rest, sp, ustack => do
    if ustack.length ≥ maxArg then return none
    else
      let sp := addInt sp (-(arg.length + 1 : Int))
      let sp := sp - sp % 16
      if sp < stackbase then return none
      else if (← copyout me root sp (arg ++ [0])) < 0 then return none
      else pushArgs me root stackbase rest sp (sp :: ustack)

/-- "push a copy of ustack[]": the new stack pointer. -/
def pushUstack (me : ProcId) (root stackbase sp : Nat) (ustack : List Nat) : K (Option Nat) := do
  let words := ustack.reverse ++ [0]
  let sp := addInt sp (-(words.length * 8 : Int))
  let sp := sp - sp % 16
  if sp < stackbase then return none
  else if (← copyout me root sp (words.flatMap fun w => bytesOf w 8)) < 0 then
    return none
  else return some sp

/-- "Allocate some pages at the next page boundary" and everything up to
the commit: the stack pointer, or `none` for `goto bad`, and the size
reached. -/
def buildStack (me : ProcId) (root : Nat) (argv : List (List UInt8))
    (sz : Nat) : K (Option Nat × Nat) := do
  let sz := pgroundup sz
  let sz1 ← uvmalloc root sz (sz + (userStack + 1) * pgsize) pteW
  if sz1 = 0 then return (none, sz)
  else
    uvmclear root (sz1 - (userStack + 1) * pgsize)
    let stackbase := sz1 - userStack * pgsize
    match ← pushArgs me root stackbase argv sz1 [] with
    | none => return (none, sz1)
    | some (sp, ustack) => return (← pushUstack me root stackbase sp ustack, sz1)

/-- "Commit to the user image"; the caller frees the old table. -/
def commitImage (me : ProcId) (root sz entry sp : Nat) : K Unit := do
  note (.commit me)
  modify fun s => s.updProc me fun q => { q with pagetable := some root, sz := sz }
  modify fun s =>
    ((s.writeBytes (s.trapframePa me) 120 (bytesOf sp 8)).writeBytes
      (s.trapframePa me) 24 (bytesOf entry 8)).writeBytes
      (s.trapframePa me) 48 (bytesOf sp 8)

/-- `kexec`; `exe` is `none` when `namei` finds no file. -/
def kexec (me : ProcId) (exe : Option Exe) (argv : List (List UInt8)) : K Int := do
  match exe with
  | none => return -1
  | some exe =>
    match exe.elf with
    | none => return -1
    | some elf =>
      if elf.magic ≠ elfMagic then return -1
      else
        match ← procPagetable me with
        | none => return -1
        | some root =>
          let (loaded, sz) ← loadProgram exe root elf.phoff elf.phnum 0 0
          if !loaded then
            procFreepagetable root sz
            return -1
          else
            let s ← get
            let oldsz := (s.proc me).sz
            let (sp?, sz) ← buildStack me root argv sz
            match sp? with
            | none =>
              procFreepagetable root sz
              return -1
            | some sp =>
              let old ← pagetableOf me
              commitImage me root sz elf.entry sp
              procFreepagetable old oldsz
              return argv.length

end GemOS
