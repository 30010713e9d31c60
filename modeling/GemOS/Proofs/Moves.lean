/-
The paging code as a machine that moves pages.

Whatever the kernel does with memory is a sequence of `Move`s: a page is
taken from the free list, linked into a table, mapped, unmapped, handed
to a process, and so on. `Move` lists them, with what the code has
checked by then as guards; everything the ownership of pages does not
depend on (statistics, reference bits, contents of pages, requests that
come and go) is one move, `aside`. Bringing a page in and swapping one out
are single moves, with the frame entry and the count that go with them.

# What the code has in hand

`Ghost` records what is nowhere in the kernel's data while an operation
is under way: pages in local variables, a page table that belongs to no
process (yet, or no longer), a process being dismantled, and the PTE of a
page whose swap entry is cleared but which is not mapped again.

# Ownership

`Holds g s u pa` says that page `pa` is in use `u`. `Own` is the
invariant of all moves (next module): no page has two uses, the tables of
processes are live and map the trampoline and the trapframe, and sizes
and addresses are in range.
-/
import GemOS.Lib.Exclusive
import GemOS.Kernel.System
import GemOS.Proofs.Progress

namespace GemOS

open Prog

-- ======== addresses

/-- Pages below `TRAPFRAME`. -/
abbrev userPages : Nat := 2 ^ 26 - 2

/-- Addresses below `TRAPFRAME` are on user pages. -/
theorem vpn_lt {va : Nat} (h : va < trapframeVa) : va >>> 12 < userPages := by
  simp only [trapframeVa, trampolineVa, maxva, pgsize, userPages, Nat.shiftRight_eq_div_pow] at *
  omega

theorem vpn_mul (v : Nat) : (v * pgsize) >>> 12 = v := by
  rw [Nat.shiftRight_eq_div_pow]
  exact Nat.mul_div_cancel v (by decide)

theorem mul_vpn {va : Nat} (halign : va % pgsize = 0) : va >>> 12 * pgsize = va := by
  rw [Nat.shiftRight_eq_div_pow]
  simp only [pgsize] at *
  omega

theorem mul_pgsize_inj {v w : Nat} (h : v * pgsize = w * pgsize) : v = w :=
  Nat.eq_of_mul_eq_mul_right (by decide) h

-- ======== uses

/-- What the running operation has in hand (module comment). -/
structure Ghost where
  hand : List Nat
  spare : Option (Nat × Option ProcId)
  dying : Option ProcId
  pending : Option (ProcId × Nat)

/-- Between two operations. -/
def Ghost.empty : Ghost :=
  { hand := [], spare := none, dying := none, pending := none }

/-- No PTE is pending, and no process is being dismantled. -/
structure Ghost.AtRest (g : Ghost) : Prop where
  pending : g.pending = none
  dying : g.dying = none

theorem Ghost.AtRest.alive {g : Ghost} (h : g.AtRest) (p : ProcId) : g.dying ≠ some p := by
  rw [h.dying]
  exact nofun

/-- What a page can be used for. -/
inductive Use
  | free
  | held
  | hand
  | root (r : Nat)
  | dir (r i : Nat)
  | mid (r j : Nat)
  | leaf (r v : Nat)
  | trapframe (p : ProcId)

/-- Page `pa` is in use `u`. -/
def Holds (g : Ghost) (s : Kernel) : Use → Nat → Prop
  | .free, pa => pa ∈ s.freelist
  | .held, pa => pa ∈ s.held
  | .hand, pa => pa ∈ g.hand
  | .root r, pa => pa = r ∧ (s.pagetables r).live = true
  | .dir r i, pa => (s.pagetables r).dir i = some pa
  | .mid r j, pa => (s.pagetables r).mid j = some pa
  | .leaf r v, pa => v < userPages ∧ isV ((s.pagetables r).leaf v) = true
      ∧ pte2pa ((s.pagetables r).leaf v) = pa
  | .trapframe p, pa => (s.proc p).trapframe = some pa

/-- The table at `root` is that of process `p`, which is not being
dismantled. -/
def Attached (g : Ghost) (s : Kernel) (p : ProcId) (root : Nat) : Prop :=
  g.dying ≠ some p ∧ (s.proc p).pagetable = some root

/-- A process has one table. -/
theorem Attached.unique {g : Ghost} {s : Kernel} {p : ProcId} {r r' : Nat} (h : Attached g s p r)
    (h' : Attached g s p r') : r = r' :=
  Option.some.inj (h.2.symm.trans h'.2)

/-- The table maps the trampoline and the trapframe of `p`. -/
structure Fixed (s : Kernel) (p : ProcId) (root : Nat) : Prop where
  trampoline : isV ((s.pagetables root).leaf (userPages + 1)) = true
    ∧ pte2pa ((s.pagetables root).leaf (userPages + 1)) = s.trampoline
  trapframe : isV ((s.pagetables root).leaf userPages) = true
    ∧ (s.proc p).trapframe = some (pte2pa ((s.pagetables root).leaf userPages))

/-- A free slot has nothing, one being set up has no pages yet, and every
other process has a table. -/
structure Proc.Sound (q : Proc) : Prop where
  unused : q.state = .unused → q.pagetable = none ∧ q.trapframe = none ∧ q.sz = 0
  used : q.state = .used → q.pagetable = none → q.residentPages = 0
  table : q.state ≠ .unused → q.state ≠ .used → q.pagetable ≠ none

/-- The ownership invariant. -/
structure Own (g : Ghost) (s : Kernel) : Prop where
  image : kernbase ≤ s.kend ∧ s.trampoline % pgsize = 0
    ∧ kernbase ≤ s.trampoline ∧ s.trampoline + pgsize ≤ s.kend
  exclusive : Exclusive (Holds g s)
  ram : ∀ u pa, Holds g s u pa → RamPage pa ∧ s.kend ≤ pa
  nodup : (s.freelist ++ s.held ++ g.hand).Nodup
  dead : ∀ r, (s.pagetables r).live = false → s.pagetables r = .dead
  top : ∀ r v, userPages + 2 ≤ v → (s.pagetables r).leaf v = 0
  attached : ∀ p root, Attached g s p root → (s.pagetables root).live = true ∧ Fixed s p root
      ∧ ∀ x, g.spare ≠ some (root, x)
  apart : ∀ p q root, Attached g s p root → Attached g s q root → p = q
  spare : ∀ root x, g.spare = some (root, x) →
    (s.pagetables root).live = true ∧ ∀ p, x = some p → Fixed s p root
  procs : ∀ p, g.dying ≠ some p → (s.proc p).Sound
  sz : ∀ p, (s.proc p).sz ≤ trapframeVa
  frames : ∀ i, (s.frameTable i).inUse = true →
    (s.frameTable i).vaddr < trapframeVa ∧ (s.frameTable i).vaddr % pgsize = 0
      ∧ s.frameIndexToPa i < phystop
  idle : Idle s

-- ======== moves

/-- A change that ownership does not see. -/
structure Steady (s s' : Kernel) : Prop where
  kend : s'.kend = s.kend
  trampoline : s'.trampoline = s.trampoline
  pages : (s'.freelist ++ s'.held).Perm (s.freelist ++ s.held)
  tables : s'.pagetables = s.pagetables
  sz : ∀ p, (s'.proc p).sz = (s.proc p).sz
  pagetable : ∀ p, (s'.proc p).pagetable = (s.proc p).pagetable
  trapframe : ∀ p, (s'.proc p).trapframe = (s.proc p).trapframe
  procs : ∀ p, (s.proc p).Sound → (s'.proc p).Sound
  frames : ∀ i, (s'.frameTable i).core = (s.frameTable i).core
  swaps : s'.swapDiskTable = s.swapDiskTable
  idle : Idle s → Idle s'

/-- A change that has nothing to do with pages: no process with a table
counts more or fewer of them either. -/
structure Aside (s s' : Kernel) : Prop extends Steady s s' where
  resident : ∀ p, (s.proc p).pagetable ≠ none → (s'.proc p).residentPages = (s.proc p).residentPages

/-- `f` counts `k` resident pages more, and otherwise faults and swaps. -/
def Counts (f : Proc → Proc) (k : Int) : Prop :=
  ∀ q, (f q).bare = { q.bare with residentPages := q.residentPages + k }

/-- The core of an entry is all but the reference bit. -/
theorem FrameEntry.core_eq {e e' : FrameEntry} (h : e.core = e'.core) :
    e.inUse = e'.inUse ∧ e.owner = e'.owner ∧ e.vaddr = e'.vaddr ∧ e.swapped = e'.swapped := by
  unfold FrameEntry.core at h
  rw [FrameEntry.mk.injEq] at h
  exact ⟨h.1, h.2.1, h.2.2.1, h.2.2.2.2.1⟩

/-- The frame entry at `idx` tells the truth: its owner's table maps the
recorded address, validly, to that frame. -/
def Accurate (s : Kernel) (idx : Nat) : Prop :=
  ∃ p root, (s.frameTable idx).owner = some p ∧ (s.proc p).pagetable = some root
    ∧ isV (s.pte root (s.frameTable idx).vaddr) = true
    ∧ pte2pa (s.pte root (s.frameTable idx).vaddr) = s.frameIndexToPa idx

/-- A page brought in: mapped, registered and counted. -/
def Kernel.brought (s : Kernel) (p : ProcId) (root va pa perm : Nat) (f : Proc → Proc) : Kernel :=
  ((s.setLeaf root va (pa2pte pa ||| perm ||| pteV)).registered p va pa).updProc p f

/-- `freewalk` on the table at `root`. -/
def Kernel.freedTable (s : Kernel) (root : Nat) (m : Nat → Page) : Kernel :=
  { s with
    freelist := ((s.pagetables root).pages root).reverse ++ s.freelist
    mem := m
    pagetables := Function.update s.pagetables root .dead }

/-- One step of the page machine, with the notes it leaves. -/
inductive Move (g : Ghost) (s : Kernel) : Notes Mark Kernel → Ghost → Kernel → Prop
  | aside {s' : Kernel} : Aside s s' → Move g s [] g s'
  | take {pa : Nat} {rest : List Nat} :
      s.freelist = pa :: rest →
      Move g s [] { g with hand := pa :: g.hand } (s.popped pa rest)
  | give {pa : Nat} {rest : List Nat} :
      g.hand = pa :: rest → Move g s [] { g with hand := rest } (s.push pa)
  -- interior tables
  | linkDir {root i pa : Nat} {rest : List Nat} :
      g.hand = pa :: rest → (s.pagetables root).live = true →
      (s.pagetables root).dir i = none →
      Move g s [] { g with hand := rest }
        ((s.memset pa 0).setTable root ((s.pagetables root).linkDir i pa))
  | linkMid {root j pa : Nat} {rest : List Nat} :
      g.hand = pa :: rest → (s.pagetables root).live = true →
      (s.pagetables root).mid j = none →
      Move g s [] { g with hand := rest }
        ((s.memset pa 0).setTable root ((s.pagetables root).linkMid j pa))
  -- user pages; `vmfault` and `swap_page_in` map below the size of the
  -- process, everyone else at or above it
  | map {root va pa perm : Nat} {rest : List Nat} :
      g.hand = pa :: rest → g.pending = none →
      (∀ p, (s.proc p).pagetable = some root → (s.proc p).sz ≤ va) →
      (s.pagetables root).live = true →
      ((s.pagetables root).mid (va >>> 21)).isSome → va < trapframeVa →
      va % pgsize = 0 → isV (s.pte root va) = false → perm < 1024 →
      Move g s [(.map root va, s)] { g with hand := rest }
        (s.setLeaf root va (pa2pte pa ||| perm ||| pteV))
  | bring {p : ProcId} {root va pa perm : Nat} {rest : List Nat} {f : Proc → Proc} :
      g.hand = pa :: rest → g.pending = none ∨ g.pending = some (p, va) →
      Attached g s p root → va < (s.proc p).sz →
      ((s.pagetables root).mid (va >>> 21)).isSome → va < trapframeVa →
      va % pgsize = 0 → isV (s.pte root va) = false → perm < 1024 →
      Counts f 1 →
      Move g s [(.map root va, s)] { g with hand := rest, pending := none }
        (s.brought p root va pa perm f)
  | unmap {root va : Nat} :
      (s.pagetables root).live = true →
      ((s.pagetables root).mid (va >>> 21)).isSome → va < trapframeVa →
      va % pgsize = 0 → isV (s.pte root va) = true →
      Move g s [(.unmap root va, s)] g ((s.push (pte2pa (s.pte root va))).setLeaf root va 0)
  | touch {root va : Nat} :
      va < trapframeVa → isV (s.pte root va) = true →
      Move g s [] g (s.setLeaf root va (s.pte root va ||| pteA))
  | guard {root va : Nat} {x : Option ProcId} :
      g.spare = some (root, x) → va < trapframeVa →
      Move g s [] g (s.setLeaf root va (clearFlag (s.pte root va) pteU))
  -- tables
  | create {root : Nat} {rest : List Nat} :
      g.hand = root :: rest → g.spare = none →
      Move g s [] { g with hand := rest, spare := some (root, none) }
        ((s.memset root 0).setTable root .empty)
  | mapFixed {root va pa perm : Nat} :
      g.spare = some (root, none) → va = trampolineVa ∨ va = trapframeVa →
      isV (s.pte root va) = false →
      Move g s [(.map root va, s)] g (s.setLeaf root va (pa2pte pa ||| perm ||| pteV))
  | settle {root : Nat} {p : ProcId} :
      g.spare = some (root, none) → Fixed s p root →
      (∀ v < userPages, (s.pagetables root).leaf v = 0) →
      Move g s [] { g with spare := some (root, some p) } s
  | unsettle {root : Nat} {x : Option ProcId} :
      g.spare = some (root, x) →
      Move g s [] { g with spare := some (root, none) } s
  | unmapFixed {root va : Nat} :
      g.spare = some (root, none) → trapframeVa ≤ va → va < maxva →
      Move g s [(.unmap root va, s)] g (s.setLeaf root va 0)
  | destroy {root : Nat} {m : Nat → Page} :
      g.spare = some (root, none) →
      Move g s [] { g with spare := none } (s.freedTable root m)
  -- processes
  | setTrapframe {p : ProcId} {pa : Nat} {rest : List Nat} :
      g.hand = pa :: rest → g.spare = none → (s.proc p).pagetable = none →
      (s.proc p).state ≠ .unused →
      Move g s [] { g with hand := rest }
        (s.updProc p fun q => { q with trapframe := some pa })
  | attach {p : ProcId} {root : Nat} :
      g.spare = some (root, some p) → g.dying = none →
      (s.proc p).pagetable = none → (s.proc p).state ≠ .unused →
      Move g s [] { g with spare := none }
        (s.updProc p fun q => { q with pagetable := some root })
  | commit {p : ProcId} {root old sz : Nat} :
      g.pending = none → g.spare = some (root, some p) →
      Attached g s p old → sz ≤ trapframeVa →
      Move g s [(.commit p, s)] { g with spare := some (old, none) }
        (s.updProc p fun q => { q with pagetable := some root, sz := sz })
  | reap {p : ProcId} :
      g.pending = none → g.spare = none → g.dying = none →
      Move g s [(.reap p, s)] { g with
          dying := some p
          spare := (s.proc p).pagetable.map fun root => (root, none) } s
  | freeTrapframe {p : ProcId} {pa : Nat} :
      g.dying = some p → (s.proc p).trapframe = some pa →
      (∀ root x, g.spare = some (root, x) → x = none) →
      Move g s [] g ((s.push pa).updProc p fun q => { q with trapframe := none })
  | clear {p : ProcId} :
      g.dying = some p → g.spare = none → (s.proc p).trapframe = none →
      Move g s [] { g with dying := none } (s.updProc p Proc.cleared)
  | setSz {p : ProcId} {root sz : Nat} :
      Attached g s p root → sz ≤ trapframeVa →
      Move g s [] g (s.updProc p fun q => { q with sz := sz })
  | shrink {p : ProcId} {lo : Nat} :
      g.pending = none → Move g s [(.shrink p lo, s)] g s
  -- frames and swap entries
  | swapOut {p : ProcId} {root idx slot : Nat} {block : Int} {f : Proc → Proc} :
      g.pending = none → (s.frameTable idx).inUse = true →
      (s.frameTable idx).owner = some p → Attached g s p root →
      ((s.pagetables root).mid ((s.frameTable idx).vaddr >>> 21)).isSome →
      isV (s.pte root (s.frameTable idx).vaddr) = true →
      pte2pa (s.pte root (s.frameTable idx).vaddr) = s.frameIndexToPa idx →
      slot < maxSwapDiskEntries → (s.swapDiskTable slot).inUse = false →
      Counts f (-1) →
      Move g s [(.swapOut idx, s.recorded idx slot block)]
        { g with hand := s.frameIndexToPa idx :: g.hand }
        (((s.recorded idx slot block).invalidated root idx slot).updProc p f)
  | unswap {p : ProcId} {slot va : Nat} :
      g.pending = none → (s.swapDiskTable slot).inUse = true →
      (s.swapDiskTable slot).owner = some p →
      (s.swapDiskTable slot).vaddr = va →
      Move g s [] { g with pending := some (p, va) }
        (s.setSwap slot { s.swapDiskTable slot with
            inUse := false, owner := none, vaddr := 0, logicalBlock := -1 })
  | abandon {p : ProcId} {root va : Nat} :
      g.pending = some (p, va) → Attached g s p root → s.pte root va = 0 →
      Move g s [] { g with pending := none } s

-- ======== invariants

/-- `J`, which sees what is in hand, the notes of the run so far and the
state, is kept by the page machine under the hypothesis `G` on the
notes. It implies ownership, and with `G` that a frame about to be
swapped out is the one its entry describes. -/
structure Kept (G : Mark → Kernel → Prop)
    (J : Ghost → Notes Mark Kernel → Kernel → Prop) : Prop where
  own : ∀ {g n s}, J g n s → Own g s
  move : ∀ {g g' n t s s'}, J g n s → Move g s t g' s' →
    (∀ x ∈ t, G x.1 x.2) → J g' (n ++ t) s'
  accurate : ∀ {g n s idx slot block}, J g n s →
    (s.frameTable idx).inUse = true →
    G (.swapOut idx) (s.recorded idx slot block) → Accurate s idx

end GemOS
