/-
Start-up: the allocator and the tables as `main` sets them up before
`userinit` creates the first process.

`Booted` is what every later result starts from. It fixes the tables and
leaves open which pages the rest of the kernel has already taken for
itself (its page table, the kernel stacks, the virtio rings): those are
in `held` if they can come back and nowhere if they cannot.
-/
import Mathlib.Data.List.Nodup
import GemOS.Kernel.Memsys

namespace GemOS

open Prog

-- ======== initial values

/-- A slot of `proc[]` as `procinit` leaves it. -/
def Proc.initial : Proc :=
  { state := .unused, parent := none, pid := 0, killed := false, xstate := 0
    sz := 0, pagetable := none, trapframe := none, syscallCount := 0
    level := 0, currentTicks := 0, ticks := fun _ => 0, timesScheduled := 0
    sliceStartSyscalls := 0, timeSliceExpired := false, pageFaults := 0
    pagesEvicted := 0, pagesSwappedIn := 0, pagesSwappedOut := 0
    residentPages := 0 }

/-- An entry of `frame_table` after `frametable_init`. -/
def FrameEntry.initial : FrameEntry :=
  { inUse := false, owner := none, vaddr := 0, refBit := false
    swapped := false, swapIndex := -1 }

/-- An entry of `swap_disk_table` after `frametable_init`. -/
def SwapDiskEntry.initial : SwapDiskEntry :=
  { inUse := false, owner := none, vaddr := 0, logicalBlock := -1
    timestamp := 0 }

/-- The zeroed bytes of a request page, as a request. -/
def DiskRequest.zero : DiskRequest :=
  { type := .read, logicalBlock := 0, diskId := 0, blockOnDisk := 0
    buffer := 0, proc := none, priority := 0, timestamp := 0
    raidMode := .raid0, next := none }

/-- The globals with the free pages `free`, everything else as it is
before the first process. -/
def Kernel.initial (kend trampoline : Nat) (free : List Nat) : Kernel :=
  { kend := kend
    trampoline := trampoline
    freelist := free
    mem := fun _ => fill 0
    held := []
    env := []
    pagetables := fun _ => .dead
    proc := fun _ => .initial
    initproc := 0
    nextpid := 1
    ticks := 0
    frameTable := fun _ => .initial
    clockHand := 0
    swapDiskTable := fun _ => .initial
    nextSwapBlock := swapStartBlock
    diskQueueHead := none
    diskQueueTail := none
    requests := fun _ => .zero
    currentDiskHead := fun _ => 0
    diskSchedPolicy := .fcfs
    raidMode := .raid0
    diskReads := 0
    diskWrites := 0
    totalDiskLatency := 0
    diskOperations := 0 }

-- ======== kinit

/-- The loop of `freerange`, by the pages still to free. -/
def freerange : Nat → Nat → K Unit
  | 0, _ => return ()
  | n + 1, p => do
    kfree p
    freerange n (p + pgsize)

/-- `kinit`: every page from `end` to `PHYSTOP` is freed. -/
def kinit : K Unit := do
  let s ← get
  freerange ((phystop - s.frameBase) / pgsize) s.frameBase

-- ======== booted

/-- A page of RAM. -/
def RamPage (pa : Nat) : Prop :=
  pa % pgsize = 0 ∧ kernbase ≤ pa ∧ pa < phystop

instance (pa : Nat) : Decidable (RamPage pa) :=
  inferInstanceAs (Decidable (_ ∧ _))

/-- The state in which `userinit` runs. -/
structure Booted (s : Kernel) : Prop where
  /-- The kernel image lies in RAM, the trampoline page in the image. -/
  kend : kernbase ≤ s.kend
  trampoline : s.trampoline % pgsize = 0 ∧ kernbase ≤ s.trampoline ∧ s.trampoline + pgsize ≤ s.kend
  /-- Free pages, and pages the rest of the kernel can give back, are
  distinct pages of RAM above the image. -/
  nodup : (s.freelist ++ s.held).Nodup
  ram : ∀ pa ∈ s.freelist ++ s.held, RamPage pa ∧ s.kend ≤ pa
  proc : ∀ p, s.proc p = .initial
  pagetables : ∀ root, s.pagetables root = .dead
  frames : ∀ i, s.frameTable i = .initial
  swaps : ∀ i, s.swapDiskTable i = .initial
  nextSwapBlock : s.nextSwapBlock = swapStartBlock
  head : s.diskQueueHead = none
  tail : s.diskQueueTail = none

/-- The globals before the first process, whatever pages are free. -/
theorem Kernel.initial_booted {kend trampoline : Nat} {free : List Nat} (hlo : kernbase ≤ kend)
    (ht : trampoline % pgsize = 0 ∧ kernbase ≤ trampoline ∧ trampoline + pgsize ≤ kend)
    (hnodup : free.Nodup) (hram : ∀ pa ∈ free, RamPage pa ∧ kend ≤ pa) :
    Booted (Kernel.initial kend trampoline free) := by
  have happ : free ++ (Kernel.initial kend trampoline free).held = free := List.append_nil free
  exact ⟨hlo, ht, happ.symm ▸ hnodup, happ.symm ▸ hram, fun _ => rfl,
    fun _ => rfl, fun _ => rfl, fun _ => rfl, rfl, rfl, rfl⟩

/-- The loop of `freerange` pushes the pages of its range in order. -/
theorem freerange_run (n : Nat) : ∀ (p : Nat) (s : Kernel),
    p % pgsize = 0 → s.kend ≤ p → p + n * pgsize ≤ phystop →
    ∃ mem, freerange n p s = .ok ((), { s with
          freelist := ((List.range n).map fun i => p + i * pgsize).reverse ++ s.freelist
          mem := mem }, []) := by
  induction n with
  | zero => intro p s _ _ _; exact ⟨s.mem, rfl⟩
  | succ n ih =>
    intro p s halign hlo hhi
    have hstop : p < phystop ∧ p + pgsize + n * pgsize ≤ phystop := by
      simp only [pgsize, phystop] at hhi ⊢
      omega
    have halign' : (p + pgsize) % pgsize = 0 := by
      rw [Nat.add_mod_right]
      exact halign
    have hk := kfree_run halign hlo hstop.1
    obtain ⟨mem, hrec⟩ := ih (p + pgsize) (s.push p) halign'
      (hlo.trans (Nat.le_add_right ..)) hstop.2
    have hpages : (List.range (n + 1)).map (fun i => p + i * pgsize)
        = p :: (List.range n).map fun i => p + pgsize + i * pgsize := by
      rw [List.range_succ_eq_map, List.map_cons, List.map_map]
      refine List.cons_eq_cons.mpr ⟨by simp, ?_⟩
      refine List.map_congr_left fun i _ => ?_
      simp only [Function.comp_apply, pgsize]
      omega
    refine ⟨mem, ?_⟩
    simp only [freerange]
    rw [bind_run_quiet hk, hrec, hpages]
    simp [Kernel.push]

/-- `PGROUNDUP(end)` is the first page boundary at or above the image. -/
theorem frameBase_bounds {s : Kernel} (hhi : s.kend ≤ phystop) :
    s.frameBase % pgsize = 0 ∧ s.kend ≤ s.frameBase ∧ s.frameBase ≤ phystop := by
  simp only [Kernel.frameBase, pgroundup, pgsize, phystop] at hhi ⊢
  omega

/-- Start-up as `main` does it ends in a booted state whose free list has
every page of RAM above the image, each once. -/
theorem kinit_booted {kend trampoline : Nat} (hlo : kernbase ≤ kend) (hhi : kend ≤ phystop)
    (ht : trampoline % pgsize = 0 ∧ kernbase ≤ trampoline ∧ trampoline + pgsize ≤ kend) :
    ∃ s, kinit (Kernel.initial kend trampoline []) = .ok ((), s, []) ∧ Booted s
      ∧ s.freelist.Nodup ∧ ∀ pa, pa ∈ s.freelist ↔ RamPage pa ∧ kend ≤ pa := by
  have hbase : (Kernel.initial kend trampoline []).frameBase = pgroundup kend := rfl
  obtain ⟨halign, hend, hstop⟩ := frameBase_bounds (s := Kernel.initial kend trampoline []) hhi
  obtain ⟨mem, hrun⟩ := freerange_run ((phystop - pgroundup kend) / pgsize) (pgroundup kend)
    (Kernel.initial kend trampoline []) halign hend (by
      have := Nat.div_mul_le_self (phystop - pgroundup kend) pgsize
      omega)
  have hpages : ∀ pa, pa ∈ ((List.range ((phystop - pgroundup kend) / pgsize)).map
      fun i => pgroundup kend + i * pgsize).reverse ++ [] ↔ RamPage pa ∧ kend ≤ pa := by
    intro pa
    simp only [List.append_nil, List.mem_reverse, List.mem_map, List.mem_range]
    simp only [hbase, RamPage, pgroundup, pgsize, phystop, kernbase] at *
    constructor
    · rintro ⟨i, hi, rfl⟩
      omega
    · intro hpa
      refine ⟨(pa - pgroundup kend) / pgsize, ?_, ?_⟩ <;> simp only [pgroundup, pgsize] <;> omega
  have hnodup : (((List.range ((phystop - pgroundup kend) / pgsize)).map
      fun i => pgroundup kend + i * pgsize).reverse ++ []).Nodup := by
    rw [List.append_nil]
    refine List.nodup_reverse.mpr (List.Nodup.map ?_ List.nodup_range)
    intro i j hij
    simp only [pgsize] at hij
    omega
  refine ⟨_, by simp only [kinit, get_bind_run, hbase]; exact hrun, ?_, hnodup, hpages⟩
  refine ⟨hlo, ht, ?_, fun pa hpa => ?_, fun _ => rfl, fun _ => rfl, fun _ => rfl,
    fun _ => rfl, rfl, rfl, rfl⟩
  · exact (List.append_nil _).symm ▸ hnodup
  · exact (hpages pa).mp ((List.mem_append.mp hpa).resolve_right List.not_mem_nil)

/-- With the image up to `0x80021000` that page is free and the last one
of the image is not. -/
theorem kinit_booted_image : ∃ s, kinit (.initial 0x80021000 0x80007000 []) = .ok ((), s, [])
      ∧ Booted s ∧ 0x80021000 ∈ s.freelist ∧ 0x80020000 ∉ s.freelist := by
  obtain ⟨s, hrun, hbooted, -, hfree⟩ := @kinit_booted 0x80021000 0x80007000 (by decide)
    (by decide) (by decide)
  refine ⟨s, hrun, hbooted, (hfree _).mpr (by decide), fun hmem => ?_⟩
  exact absurd ((hfree _).mp hmem) (by decide)

end GemOS
