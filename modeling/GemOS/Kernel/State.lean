/-
The kernel's data: the constants of `param.h`, `riscv.h`,
`memlayout.h`, `memsys.h`, `disk_sched.h` and `proc.h`, the structures
behind `proc[]`, `frame_table[]`, `swap_disk_table[]` and the disk
queue, and the record of every global the paging code reads or writes.

# Representation

- Addresses and sizes are `Nat`; a 64-bit wrap is written out (`% 2^64`)
  where the source can reach it. `int` fields that can be negative are
  `Int`. Flags held in an `int` are `Bool`, nullable pointers `Option`.
- Physical memory is a map from page addresses to their 4096 bytes. A
  queued `struct disk_request` lives in a page of its own and is kept
  typed, beside the bytes (`requests`).
- A page table is the radix tree `walk` descends, with each entry
  named by the address bits that lead to it: `dir` holds the level-2
  entries (bits 30 and up), `mid` the level-1 entries (bits 21 and up),
  `leaf` the PTE words (bits 12 and up). Interior entries carry the page
  of the table they point to. A fresh table page is zeroed, so nothing
  lies below a missing interior entry; the record carries that as a
  proof.
- A value the source keeps in range by its own arithmetic has a type
  that says so: the level of a process is a `Fin mlfqLevels`, the clock
  hand a `Fin maxFrames`.
- `end` and `trampoline` are placed by the linker script, so they are
  fields (`kend`, `trampoline`) and no result fixes their values.

# The other users of the allocator

Pipes, kernel stacks and the rest of the kernel share the free list
with the paging code. `held` is what they hold, and `env` says, for
each coming `kalloc` call, what they do to the list just before it:
allocate (`take`) or free (`give`) pages. An empty `env` is a run
without interference.
-/
import Mathlib.Logic.Function.Basic
import Mathlib.Data.Nat.Bitwise
import GemOS.Lib.Prog

namespace GemOS

-- ======== constants

/-- Bytes per page. -/
abbrev pgsize : Nat := 4096

/-- Size of the process table. -/
abbrev nproc : Nat := 64

instance : NeZero nproc := ⟨by decide⟩

/-- Entries of `frame_table`. -/
abbrev maxFrames : Nat := 32768

/-- Entries of `swap_disk_table`. -/
abbrev maxSwapDiskEntries : Nat := 32768

abbrev mlfqLevels : Nat := 4

instance : NeZero mlfqLevels := ⟨by decide⟩

abbrev numDisks : Int := 4

abbrev diskBlocksPerDisk : Int := 4096

/-- The constant `C` of the latency model. -/
abbrev diskRotationalDelay : Nat := 5

abbrev swapStartBlock : Int := 0

/-- Where RAM starts. -/
abbrev kernbase : Nat := 0x80000000

/-- First address above the RAM the kernel uses. -/
abbrev phystop : Nat := 0x88000000

/-- Pages between `KERNBASE` and `PHYSTOP`; no chain of requests, one
page each, is longer. -/
abbrev ramPages : Nat := 32768

/-- One beyond the highest virtual address. -/
abbrev maxva : Nat := 2 ^ 38

abbrev trampolineVa : Nat := maxva - pgsize

abbrev trapframeVa : Nat := trampolineVa - pgsize

def pgroundup (sz : Nat) : Nat := (sz + (pgsize - 1)) % 2 ^ 64 / pgsize * pgsize

def pgrounddown (a : Nat) : Nat := a / pgsize * pgsize

-- ======== PTEs

abbrev pteV : Nat := 1
abbrev pteR : Nat := 2
abbrev pteW : Nat := 4
abbrev pteX : Nat := 8
abbrev pteU : Nat := 16
abbrev pteA : Nat := 64

def pa2pte (pa : Nat) : Nat := (pa >>> 12) <<< 10

def pte2pa (pte : Nat) : Nat := ((pte >>> 10) <<< 12) % 2 ^ 64

def pteFlags (pte : Nat) : Nat := pte &&& 0x3FF

/-- `*pte & PTE_V`. -/
def isV (pte : Nat) : Bool := pte &&& pteV != 0

/-- `*pte & PTE_U`. -/
def isU (pte : Nat) : Bool := pte &&& pteU != 0

/-- `*pte & PTE_W`. -/
def isW (pte : Nat) : Bool := pte &&& pteW != 0

/-- `pte & ~flag` on a 64-bit word. -/
def clearFlag (pte flag : Nat) : Nat := pte &&& (2 ^ 64 - 1 - flag)

-- ======== data

/-- The bytes of one physical page. -/
abbrev Page : Type := Fin pgsize → UInt8

/-- `memset(pa, c, PGSIZE)`. -/
def fill (c : UInt8) : Page := fun _ => c

/-- Byte `i` of a little-endian 64-bit word. -/
def byteOf (w i : Nat) : UInt8 := UInt8.ofNat (w / 256 ^ i)

/-- A page just put on the free list: junk, with `r->next` in its first
eight bytes. -/
def runPage (next : Option Nat) : Page := fun i =>
  if i.val < 8 then byteOf (next.getD 0) i.val else 1

/-- A slot of `proc[]`; pointers to processes are slot numbers. -/
abbrev ProcId : Type := Fin nproc

/-- `enum procstate`. -/
inductive ProcState
  | unused | used | sleeping | runnable | running | zombie
  deriving DecidableEq, Repr

/-- `struct proc`, the fields of the scheduler and of the memory
system. -/
structure Proc where
  state : ProcState
  parent : Option ProcId
  pid : Int
  killed : Bool
  xstate : Int
  sz : Nat
  pagetable : Option Nat
  trapframe : Option Nat
  syscallCount : Int
  level : Fin mlfqLevels
  currentTicks : Int
  ticks : Fin mlfqLevels → Int
  timesScheduled : Int
  sliceStartSyscalls : Int
  timeSliceExpired : Bool
  pageFaults : Int
  pagesEvicted : Int
  pagesSwappedIn : Int
  pagesSwappedOut : Int
  residentPages : Int

/-- `struct frame_entry`. -/
structure FrameEntry where
  inUse : Bool
  owner : Option ProcId
  vaddr : Nat
  refBit : Bool
  swapped : Bool
  swapIndex : Int
  deriving DecidableEq, Repr

/-- `struct swap_disk_entry`. -/
structure SwapDiskEntry where
  inUse : Bool
  owner : Option ProcId
  vaddr : Nat
  logicalBlock : Int
  timestamp : Nat
  deriving DecidableEq, Repr

/-- `DISK_READ` and `DISK_WRITE`. -/
inductive DiskOp
  | read | write
  deriving DecidableEq, Repr

/-- `disk_sched_policy`. -/
inductive DiskPolicy
  | fcfs | sstf
  deriving DecidableEq, Repr

/-- `raid_mode`. -/
inductive RaidMode
  | raid0 | raid1 | raid5
  deriving DecidableEq, Repr

/-- `struct disk_request`. -/
structure DiskRequest where
  type : DiskOp
  logicalBlock : Int
  diskId : Int
  blockOnDisk : Int
  buffer : Nat
  proc : Option ProcId
  priority : Nat
  timestamp : Nat
  raidMode : RaidMode
  next : Option Nat
  deriving DecidableEq, Repr

/-- A three-level page table (module comment). One that is not live has
been freed, or never was allocated. -/
structure PageTable where
  live : Bool
  dir : Nat → Option Nat
  mid : Nat → Option Nat
  leaf : Nat → Nat
  mid_of_dir : ∀ j, dir (j >>> 9) = none → mid j = none
  leaf_of_mid : ∀ v, mid (v >>> 9) = none → leaf v = 0

/-- What the rest of the kernel does with the allocator. -/
inductive EnvOp
  | take
  | give (pa : Nat)
  deriving DecidableEq, Repr

/-- The globals of the paging code. -/
structure Kernel where
  -- kernel.ld
  kend : Nat
  trampoline : Nat
  -- kalloc.c
  freelist : List Nat
  mem : Nat → Page
  held : List Nat
  env : List (List EnvOp)
  -- vm.c, proc.c
  pagetables : Nat → PageTable
  proc : ProcId → Proc
  initproc : ProcId
  nextpid : Int
  ticks : Nat
  -- memsys.c
  frameTable : Nat → FrameEntry
  clockHand : Fin maxFrames
  swapDiskTable : Nat → SwapDiskEntry
  nextSwapBlock : Int
  -- disk_sched.c
  diskQueueHead : Option Nat
  diskQueueTail : Option Nat
  requests : Nat → DiskRequest
  currentDiskHead : Int → Int
  diskSchedPolicy : DiskPolicy
  raidMode : RaidMode
  diskReads : Nat
  diskWrites : Nat
  totalDiskLatency : Nat
  diskOperations : Nat

/-- How a kernel path can end without returning: a `panic`, a loop that
does not exit, or a dereference of a pointer that leads nowhere. -/
inductive Fault
  | panic (msg : String)
  | hang
  | wild
  deriving DecidableEq, Repr

/-- The points of the paging code that hypotheses about a run speak
of. Each is noted just before the store it names. -/
inductive Mark
  /-- `mappages` writes the leaf for `va` of the table at `root`. -/
  | map (root va : Nat)
  /-- `uvmunmap` clears a valid leaf. -/
  | unmap (root va : Nat)
  /-- `growproc` cuts the pages from `lo` up off a process. -/
  | shrink (p : ProcId) (lo : Nat)
  /-- `swap_page_out` marks frame `idx` swapped and invalidates its
  PTE. -/
  | swapOut (idx : Nat)
  /-- `kexec` replaces the image of a process. -/
  | commit (p : ProcId)
  /-- `freeproc` dismantles a process. -/
  | reap (p : ProcId)

/-- The kernel's programs. -/
abbrev K : Type → Type := Prog Kernel Fault Mark

open Prog in
/-- `panic(msg)`. -/
def panic {α : Type} (msg : String) : K α := fault (.panic msg)

-- ======== table lookups

/-- The PTE of `va` in the table at `root`, zero where no table holds
one. -/
def Kernel.pte (s : Kernel) (root va : Nat) : Nat :=
  (s.pagetables root).leaf (va >>> 12)

/-- The PTE of `va` in a process's page table. -/
def Kernel.procPte (s : Kernel) (p : ProcId) (va : Nat) : Nat :=
  match (s.proc p).pagetable with
  | some root => s.pte root va
  | none => 0

end GemOS
