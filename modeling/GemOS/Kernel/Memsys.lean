/-
Page replacement and swapping (`memsys.c`).

The critical sections are programs of their own (`selectVictim`,
`findSwapSlot`, `takeSwapBlock`, `recordSwap`, `markSwappedOut`, ...),
so that the sequential functions here and the interleaved ones are made
of the same pieces.

# Shapes to keep in mind

- The clock scan is a `while(1)` whose only exits need a victim: with
  nothing to evict it does not end. The loop takes fuel, three sweeps of
  the table, which is enough whenever it ends at all. `start_index` is
  read before the lock is taken, so the scan gets it as an argument.
- A frame stays `in_use`, with its old owner, while it is swapped out:
  only `update_frame_table` rewrites the entry.
- `swap_page_out` allocates the page of its own request.
-/
import GemOS.Kernel.DiskSched
import GemOS.Kernel.Vm

namespace GemOS

open Function Prog

-- ======== frame table

/-- `PGROUNDUP(end)`: where the frames start. -/
def Kernel.frameBase (s : Kernel) : Nat := pgroundup s.kend

/-- `get_frame_entry`: the index of the entry, `none` for the null
pointer. -/
def Kernel.getFrameEntry (s : Kernel) (pa : Nat) : Option Nat :=
  if pa < s.frameBase ∨ phystop ≤ pa then none
  else if maxFrames ≤ (pa - s.frameBase) / pgsize then none
  else some ((pa - s.frameBase) / pgsize)

def Kernel.frameIndexToPa (s : Kernel) (index : Nat) : Nat :=
  s.frameBase + index * pgsize

def Kernel.setFrame (s : Kernel) (idx : Nat) (e : FrameEntry) : Kernel :=
  { s with frameTable := update s.frameTable idx e }

/-- The effect of `update_frame_table`. -/
def Kernel.registered (s : Kernel) (p : ProcId) (va pa : Nat) : Kernel :=
  match s.getFrameEntry pa with
  | none => s
  | some idx =>
    s.setFrame idx
      { inUse := true, owner := some p, vaddr := va, refBit := true,
        swapped := false, swapIndex := -1 }

def updateFrameTable (p : ProcId) (va pa : Nat) : K Unit :=
  modify fun s => s.registered p va pa

-- ======== clock scan

/-- `entry->in_use && entry->owner != 0`, with that owner. -/
def FrameEntry.evictable (e : FrameEntry) : Option ProcId :=
  if e.inUse then e.owner else none

/-- The variables of the scan: the table (its reference bits change),
the hand, the victim so far and `lowest_priority`. -/
structure Clock where
  table : Nat → FrameEntry
  hand : Fin maxFrames
  victim : Option Nat
  lowest : Int

/-- The body of the scan at the hand, before the hand moves: a
candidate replaces the victim when its owner's level is larger; a
referenced frame loses its reference bit. -/
def Clock.visit (level : ProcId → Fin mlfqLevels) (c : Clock) : Clock :=
  let e := c.table c.hand
  match e.evictable with
  | none => c
  | some p =>
    if e.refBit then
      { c with
        table := update c.table c.hand { e with refBit := false } }
    else if c.lowest = -1 ∨ ((level p).val : Int) > c.lowest then
      { c with victim := some c.hand, lowest := (level p).val }
    else c

/-- The visit found a candidate on the lowest level: the scan stops on
it, without moving the hand. -/
def Clock.settles (level : ProcId → Fin mlfqLevels) (c : Clock) : Bool :=
  let e := c.table c.hand
  match e.evictable with
  | none => false
  | some p =>
    !e.refBit && (c.lowest == -1 || decide (((level p).val : Int) > c.lowest))
      && (level p).val == mlfqLevels - 1

/-- `clock_hand = (clock_hand + 1) % MAX_FRAMES`. -/
def nextHand (hand : Fin maxFrames) : Fin maxFrames :=
  ⟨(hand.val + 1) % maxFrames, Nat.mod_lt _ (by decide)⟩

def Clock.advance (c : Clock) : Clock := { c with hand := nextHand c.hand }

/-- `while(1)`: fuel counts rounds, `none` is a scan still running. -/
def clockLoop (level : ProcId → Fin mlfqLevels) (start : Fin maxFrames) :
    Nat → Clock → Option Clock
  | 0, _ => none
  | fuel + 1, c =>
    if c.settles level then some (c.visit level)
    else
      let c' := (c.visit level).advance
      if c'.hand = start ∧ c'.victim.isSome then some c'
      else clockLoop level start fuel c'

/-- The second scan, for the case that the first ended without a
victim. -/
def fallbackLoop (s : Kernel) : Nat → Nat → Option Nat × Int → Option Nat × Int
  | 0, _, acc => acc
  | n + 1, i, (victim, lowest) =>
    let acc := match (s.frameTable i).evictable with
      | none => (victim, lowest)
      | some p =>
        if lowest = -1 ∨ ((s.proc p).level.val : Int) > lowest then
          (some i, ((s.proc p).level.val : Int))
        else (victim, lowest)
    fallbackLoop s n (i + 1) acc

/-- The scan of `evict_page` on a state: the final clock, or `none` for
a scan that does not end. -/
def Kernel.clockScan (s : Kernel) (start : Fin maxFrames) : Option Clock :=
  clockLoop (fun p => (s.proc p).level) start (3 * maxFrames)
    { table := s.frameTable, hand := s.clockHand, victim := none, lowest := -1 }

/-- `start_index = clock_hand`, before the lock. -/
def readHand : K (Fin maxFrames) := do
  let s ← get
  return s.clockHand

/-- The part of `evict_page` under `frame_lock`. -/
def selectVictim (start : Fin maxFrames) : K (Option Nat) := do
  let s ← get
  match s.clockScan start with
  | none => fault .hang
  | some c =>
    modify fun s => { s with frameTable := c.table, clockHand := c.hand }
    match c.victim with
    | some idx => return some idx
    | none =>
      modify fun s => { s with clockHand := ⟨0, by decide⟩ }
      let s ← get
      return (fallbackLoop s maxFrames 0 (none, c.lowest)).1

-- ======== swapping

/-- The first index from `i` on, of `n`, that satisfies `f`: the shape
of every table search of this file. -/
def firstIndex (f : Nat → Bool) : Nat → Nat → Option Nat
  | 0, _ => none
  | n + 1, i => if f i then some i else firstIndex f n (i + 1)

/-- The free-slot search of `swap_page_out`. -/
def Kernel.freeSlot (s : Kernel) : Option Nat :=
  firstIndex (fun i => !(s.swapDiskTable i).inUse) maxSwapDiskEntries 0

def findSwapSlot : K (Option Nat) := do
  let s ← get
  return s.freeSlot

/-- The block allocation of `swap_page_out`: a counter with a bound. -/
def takeSwapBlock : K (Option Int) := do
  let s ← get
  if s.nextSwapBlock ≥ numDisks * diskBlocksPerDisk then return none
  else
    modify fun s => { s with nextSwapBlock := s.nextSwapBlock + 1 }
    return some s.nextSwapBlock

def Kernel.setSwap (s : Kernel) (i : Nat) (e : SwapDiskEntry) : Kernel :=
  { s with swapDiskTable := update s.swapDiskTable i e }

/-- The entry `swap_page_out` writes for the frame at `idx`. -/
def Kernel.swapEntryFor (s : Kernel) (idx : Nat) (block : Int) :
    SwapDiskEntry :=
  { inUse := true, owner := (s.frameTable idx).owner,
    vaddr := (s.frameTable idx).vaddr, logicalBlock := block,
    timestamp := s.ticks }

/-- "Update swap disk table". -/
def recordSwap (slot idx : Nat) (block : Int) : K Unit :=
  modify fun s => s.setSwap slot (s.swapEntryFor idx block)

/-- The PTE of a page just swapped out to `slot`. -/
def swappedPte (pte slot : Nat) : Nat := clearFlag pte pteV ||| (slot <<< 10)

/-- "Update frame entry" and "Mark page as invalid in page table". -/
def markSwappedOut (idx slot : Nat) : K Unit := do
  note (.swapOut idx)
  modify fun s =>
    s.setFrame idx
      { s.frameTable idx with swapped := true, swapIndex := slot }
  let s ← get
  match (s.frameTable idx).owner with
  | none => fault .wild
  | some p =>
    match (s.proc p).pagetable with
    | none => fault .wild
    | some root =>
      if ← walk root (s.frameTable idx).vaddr false then
        modify fun s =>
          s.setLeaf root (s.frameTable idx).vaddr
            (swappedPte (s.pte root (s.frameTable idx).vaddr) slot)
      else return ()

/-- "Process the disk request": whatever the scheduler hands out is
served and its page freed. -/
def serveNext : K Unit := do
  match ← scheduleNextRequest with
  | none => return ()
  | some req =>
    processDiskRequest req
    kfree req

/-- "Create a disk request" and "Process the disk request": the middle of
both swap functions. -/
def submitRequest (type : DiskOp) (logicalBlock : Int) (buffer : Nat)
    (p : Option ProcId) : K Int := do
  if (← addDiskRequest type logicalBlock buffer p) ≠ 0 then return -1
  else
    serveNext
    return 0

def swapPageOut (pa : Nat) : K Int := do
  let s ← get
  match s.getFrameEntry pa with
  | none => return -1
  | some idx =>
    if (s.frameTable idx).owner.isNone then return -1
    else
      match ← findSwapSlot with
      | none => return -1
      | some slot =>
        match ← takeSwapBlock with
        | none => return -1
        | some block =>
          let s ← get
          if (← submitRequest .write block pa (s.frameTable idx).owner) ≠ 0
          then return -1
          else
            recordSwap slot idx block
            markSwappedOut idx slot
            return 0

def Kernel.updProc (s : Kernel) (p : ProcId) (f : Proc → Proc) : Kernel :=
  { s with proc := update s.proc p (f (s.proc p)) }

/-- "Update victim owner's statistics". -/
def countEviction (idx : Nat) : K Unit :=
  modify fun s =>
    match (s.frameTable idx).owner with
    | none => s
    | some p =>
      s.updProc p fun q =>
        { q with
          pagesEvicted := q.pagesEvicted + 1
          pagesSwappedOut := q.pagesSwappedOut + 1
          residentPages := q.residentPages - 1 }

/-- `evict_page` once the victim is chosen. -/
def evictFrame (idx : Nat) : K (Option Nat) := do
  let s ← get
  let pa := s.frameIndexToPa idx
  if (← swapPageOut pa) ≠ 0 then return none
  else
    countEviction idx
    return some pa

def evictPage : K (Option Nat) := do
  let start ← readHand
  match ← selectVictim start with
  | none => return none
  | some idx => evictFrame idx

/-- The entry search of `swap_page_in`. -/
def Kernel.swapSlotOf (s : Kernel) (p : ProcId) (va : Nat) : Option Nat :=
  firstIndex
    (fun i => (s.swapDiskTable i).inUse && (s.swapDiskTable i).owner == some p
      && (s.swapDiskTable i).vaddr == va)
    maxSwapDiskEntries 0

/-- "Mark swap entry as no longer in use"; the timestamp stays. -/
def clearSwap (slot : Nat) : K Unit :=
  modify fun s =>
    s.setSwap slot
      { s.swapDiskTable slot with
        inUse := false, owner := none, vaddr := 0, logicalBlock := -1 }

/-- "Update statistics" of `swap_page_in`. -/
def countSwapIn (p : ProcId) : K Unit :=
  modify fun s =>
    s.updProc p fun q =>
      { q with
        pagesSwappedIn := q.pagesSwappedIn + 1
        residentPages := q.residentPages + 1 }

/-- A page from the allocator or, failing that, from an eviction. -/
def kallocOrEvict : K (Option Nat) := do
  match ← kalloc with
  | some pa => return some pa
  | none => evictPage

/-- `p->pagetable`, about to be walked. -/
def pagetableOf (p : ProcId) : K Nat := do
  let s ← get
  match (s.proc p).pagetable with
  | none => fault .wild
  | some root => return root

def swapPageIn (p : ProcId) (va : Nat) : K Int := do
  let s ← get
  match s.swapSlotOf p va with
  | none => return -1
  | some slot =>
    let block := (s.swapDiskTable slot).logicalBlock
    match ← kallocOrEvict with
    | none => return -1
    | some newPa =>
      if (← submitRequest .read block newPa (some p)) ≠ 0 then
        kfree newPa
        return -1
      else
        clearSwap slot
        let root ← pagetableOf p
        if (← mappages root va pgsize newPa (pteW ||| pteU ||| pteR)) ≠ 0 then
          kfree newPa
          return -1
        else
          updateFrameTable p va newPa
          countSwapIn p
          return 0

-- ======== vmfault

/-- `p->page_faults++`. -/
def countFault (p : ProcId) : K Unit :=
  modify fun s => s.updProc p fun q => { q with pageFaults := q.pageFaults + 1 }

/-- The end of `vmfault`, with the page found for the address or
without. -/
def mapFresh (me : ProcId) (va : Nat) : Option Nat → K Nat
  | none => return 0
  | some mem => do
    modify fun s => s.memset mem 0
    let root ← pagetableOf me
    if (← mappages root va pgsize mem (pteW ||| pteU ||| pteR)) ≠ 0 then
      kfree mem
      return 0
    else
      updateFrameTable me va mem
      modify fun s =>
        s.updProc me fun q => { q with residentPages := q.residentPages + 1 }
      return mem

/-- The tail of `vmfault`: a zeroed page for an address that has
none. -/
def faultIn (me : ProcId) (va : Nat) : K Nat := do
  countFault me
  mapFresh me va (← kallocOrEvict)

/-- The middle of `vmfault`, reached when nothing was swapped in. -/
def faultOrTouch (me : ProcId) (pagetable va : Nat) : K Nat := do
  if ← ismapped pagetable va then
    modify fun s => s.setLeaf pagetable va (s.pte pagetable va ||| pteA)
    return 0
  else faultIn me va

/-- `vmfault`, with the running process `me`. Its `read` argument is
not used by the source. -/
def vmfault (me : ProcId) (pagetable va : Nat) : K Nat := do
  let s ← get
  if (s.proc me).sz ≤ va then return 0
  else
    let va := pgrounddown va
    let there ← walk pagetable va false
    let s ← get
    let pte := s.pte pagetable va
    if there ∧ ¬ isV pte ∧ pte ≠ 0 then
      if (← swapPageIn me va) = 0 then
        countFault me
        return 0
      else faultOrTouch me pagetable va
    else faultOrTouch me pagetable va

-- ======== evaluation

theorem pagetableOf_ok {p : ProcId} {s s' : Kernel} {root : Nat}
    {t : List (Mark × Kernel)} (h : pagetableOf p s = .ok (root, s', t)) :
    s' = s ∧ t = [] ∧ (s.proc p).pagetable = some root := by
  simp only [pagetableOf, get_bind_run] at h
  cases hp : (s.proc p).pagetable with
  | none => rw [hp] at h; cases h
  | some root' =>
    rw [hp] at h
    cases h
    exact ⟨rfl, rfl, rfl⟩

theorem Kernel.registered_shape (s : Kernel) (p : ProcId) (va pa : Nat) :
    ∃ table, s.registered p va pa = { s with frameTable := table } := by
  unfold Kernel.registered
  cases s.getFrameEntry pa <;> exact ⟨_, rfl⟩

end GemOS
