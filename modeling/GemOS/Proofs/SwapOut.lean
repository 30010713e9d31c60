/-
One call of `swap_page_out`, from any state: what a failed call has
changed, and what a successful one writes into the PTE.

# Reserving

The call looks for the frame, its owner, a slot and a block number, in
this order, and nothing has changed while one of these is missing
(`Reserves` says that none is). Taking the block number moves
`next_swap_block`. Of the request behind it only the allocation can
fail, and no exit gives the number back.

# The index in the PTE

The index is ORed into the word above the flags, where the page number
still is. What can be read back is the union of their bits.
-/
import GemOS.Proofs.Progress
import GemOS.Proofs.Spaces
import GemOS.Proofs.SwapTrip

namespace GemOS

open Function Prog

variable {s s' : Kernel} {t : List (Mark × Kernel)} {pa idx slot root : Nat} {p : ProcId} {r : Int}

-- ======== before the reservation

/-- The frame has an owner, and there are a slot and a block number to
be had. -/
structure Reserves (s : Kernel) (pa idx : Nat) (p : ProcId) (slot : Nat) : Prop where
  entry : s.getFrameEntry pa = some idx
  owner : (s.frameTable idx).owner = some p
  slot : s.freeSlot = some slot
  block : s.nextSwapBlock < numDisks * diskBlocksPerDisk

/-- A call that does not get as far has changed nothing. -/
theorem swapPageOut_refuses (h : ¬ ∃ idx p slot, Reserves s pa idx p slot) :
    swapPageOut pa s = .ok (-1, s, []) := by
  cases hentry : s.getFrameEntry pa with
  | none =>
    simp only [swapPageOut, get_bind_run, hentry]
    rfl
  | some idx =>
    cases howner : (s.frameTable idx).owner with
    | none =>
      simp only [swapPageOut, get_bind_run, hentry, howner]
      rfl
    | some p =>
      cases hslot : s.freeSlot with
      | none =>
        have hfind : findSwapSlot s = .ok (none, s, []) := by
          rw [← hslot]
          rfl
        simp only [swapPageOut, get_bind_run, hentry, howner]
        rw [if_neg (by simp), bind_run_quiet hfind]
        rfl
      | some slot =>
        refine swapPageOut_refused hentry howner hslot ?_
        by_contra hnext
        exact h ⟨idx, p, slot, hentry, howner, hslot, Int.not_le.mp hnext⟩

-- ======== the request

/-- What a failed call must leave as it was. -/
structure SwapUntouched (s s' : Kernel) : Prop where
  swaps : s'.swapDiskTable = s.swapDiskTable
  next : s'.nextSwapBlock = s.nextSwapBlock
  frames : s'.frameTable = s.frameTable
  tables : s'.pagetables = s.pagetables
  head : s'.diskQueueHead = s.diskQueueHead
  tail : s'.diskQueueTail = s.diskQueueTail
  requests : s'.requests = s.requests

theorem SwapUntouched.trans {s1 : Kernel} (h : SwapUntouched s s1)
    (h' : SwapUntouched s1 s') : SwapUntouched s s' :=
  ⟨h'.swaps.trans h.swaps, h'.next.trans h.next, h'.frames.trans h.frames,
    h'.tables.trans h.tables, h'.head.trans h.head, h'.tail.trans h.tail,
    h'.requests.trans h.requests⟩

theorem SwapUntouched.interfered (s : Kernel) : SwapUntouched s s.interfered := by
  obtain ⟨fl, hd, m, e, hs, -⟩ := s.interfered_shape
  rw [hs]
  exact ⟨rfl, rfl, rfl, rfl, rfl, rfl, rfl⟩

/-- A request that is refused has only been to the allocator. -/
theorem submitRequest_refused {type : DiskOp} {block : Int} {buffer : Nat} {o : Option ProcId}
    (h : submitRequest type block buffer o s = .ok (r, s', t)) (hr : r ≠ 0) :
    SwapUntouched s s' := by
  cases submitRequest_cases h with
  | dry _ => exact .interfered s
  | refused _ _ => exact (SwapUntouched.interfered s).trans ⟨rfl, rfl, rfl, rfl, rfl, rfl, rfl⟩
  | queued _ _ _ => exact absurd rfl hr

/-- Past the reservation a failed call has moved `next_swap_block`, and
nothing else. -/
theorem Reserves.fails (hres : Reserves s pa idx p slot) (h : swapPageOut pa s = .ok (-1, s', t)) :
    SwapUntouched { s with nextSwapBlock := s.nextSwapBlock + 1 } s' := by
  rw [swapPageOut_run hres.entry hres.owner hres.slot hres.block] at h
  obtain ⟨r, s1, t1, t2, hsub, hrest, rfl⟩ := bind_ok h
  by_cases hr : r = 0
  · rw [if_neg (not_not.mpr hr)] at hrest
    obtain ⟨u, s2, t3, t4, -, hmark, rfl⟩ := bind_ok hrest
    obtain ⟨u', s3, t5, t6, -, hret, rfl⟩ := bind_ok hmark
    cases hret
  · rw [if_pos hr] at hrest
    cases hrest
    exact submitRequest_refused hsub hr

/-- A failed `swap_page_out` has left everything as it was exactly when
it failed before it had reserved a block number. -/
theorem swapPageOut_atomic_iff (s s' : Kernel) (pa : Nat)
    (t : List (Mark × Kernel)) (h : swapPageOut pa s = .ok (-1, s', t)) :
    SwapUntouched s s' ↔ ¬ ∃ idx p slot, Reserves s pa idx p slot := by
  constructor
  · rintro hun ⟨idx, p, slot, hres⟩
    have hnext : s'.nextSwapBlock = s.nextSwapBlock + 1 := (hres.fails h).next
    rw [hun.next] at hnext
    omega
  · intro hno
    rw [swapPageOut_refuses hno] at h
    cases h
    exact ⟨rfl, rfl, rfl, rfl, rfl, rfl, rfl⟩

set_option maxRecDepth 20000 in
/-- The frame is found and a slot is free, but the blocks are used up. -/
theorem swapPageOut_atomic_full : let s := { fives with nextSwapBlock := 16384 }
    s.getFrameEntry 0x80024000 = some 4 ∧ s.freeSlot = some 0
      ∧ swapPageOut 0x80024000 s = .ok (-1, s, [])
      ∧ ¬ ∃ idx p slot, Reserves s 0x80024000 idx p slot :=
  ⟨rfl, rfl, rfl, (swapPageOut_atomic_iff _ _ 0x80024000 [] rfl).mp
    ⟨rfl, rfl, rfl, rfl, rfl, rfl, rfl⟩⟩

set_option maxRecDepth 20000 in
/-- With no page free for the request, as whenever memory is short, the
call fails and block 0 is gone. -/
theorem swapPageOut_loses_block : ∃ s', swapPageOut 0x80024000 { fives with freelist := [] }
        = .ok (-1, s', [])
      ∧ fives.nextSwapBlock = 0 ∧ s'.nextSwapBlock = 1 :=
  ⟨_, rfl, rfl, rfl⟩

-- ======== the swapped-out PTE

/-- A walk that finds its PTE. -/
theorem walk_finds {va : Nat} (h : walk root va false s = .ok (true, s', t)) :
    va < maxva ∧ (s.pagetables root).live = true
      ∧ ((s.pagetables root).mid (va >>> 21)).isSome := by
  obtain ⟨-, hva, hlive, -⟩ := walk_ok h
  exact ⟨hva, hlive, (walk_lookup h).2.2.symm⟩

/-- A successful call has recorded the slot and written it into the PTE
that the walk finds. -/
theorem Reserves.swaps (hres : Reserves s pa idx p slot) (hroot : (s.proc p).pagetable = some root)
    (hfound : walk root (s.frameTable idx).vaddr false s = .ok (true, s, []))
    (h : swapPageOut pa s = .ok (0, s', t)) :
    (s'.frameTable idx).swapIndex = slot ∧ (s'.swapDiskTable slot).inUse = true
      ∧ (s'.swapDiskTable slot).owner = some p
      ∧ (s'.swapDiskTable slot).vaddr = (s.frameTable idx).vaddr
      ∧ s'.pte root (s.frameTable idx).vaddr
        = swappedPte (s.pte root (s.frameTable idx).vaddr) slot := by
  obtain ⟨hva, hlive, hmid⟩ := walk_finds hfound
  rw [swapPageOut_run hres.entry hres.owner hres.slot hres.block] at h
  obtain ⟨r, s1, t1, t2, hsub, hrest, rfl⟩ := bind_ok h
  have hoff := offDisk_submitRequest _ _ _ _ hsub
  simp only [Kernel.offDisk, Prod.mk.injEq] at hoff
  obtain ⟨hproc, hframes, htables⟩ := hoff
  have hspace := (spaces_eq hproc p).1
  by_cases hr : r = 0
  · rw [if_neg (not_not.mpr hr)] at hrest
    have howner : (s1.frameTable idx).owner = some p := by
      rw [hframes]
      exact hres.owner
    have hrun : markSwappedOut idx slot (s1.setSwap slot (s1.swapEntryFor idx s.nextSwapBlock))
        = .ok ((), _, _) :=
      markSwappedOut_run slot howner (hspace.trans hroot) (by rw [← hframes] at hva; exact hva)
        (by rw [← htables] at hlive; exact hlive) (by rw [← hframes, ← htables] at hmid; exact hmid)
    obtain ⟨u, s2, t3, t4, hrec, hmark, rfl⟩ := bind_ok hrest
    cases hrec
    obtain ⟨u', s3, t5, t6, hmark', hret, rfl⟩ := bind_ok hmark
    cases hret
    rw [hrun] at hmark'
    cases hmark'
    have hentry : ((s1.setSwap slot (s1.swapEntryFor idx
        s.nextSwapBlock)).invalidated root idx slot).swapDiskTable slot
        = s1.swapEntryFor idx s.nextSwapBlock := update_self ..
    refine ⟨?_, ?_, ?_, ?_, ?_⟩
    · show (update s1.frameTable idx _ idx).swapIndex = _
      rw [update_self]
    · rw [hentry]
      rfl
    · rw [hentry]
      exact howner
    · rw [hentry, ← hframes]
      rfl
    · have hpte : ((s1.setSwap slot (s1.swapEntryFor idx
          s.nextSwapBlock)).invalidated root idx slot).pte root (s1.frameTable idx).vaddr
          = swappedPte (s1.pte root (s1.frameTable idx).vaddr) slot :=
        pte_setLeaf_self _ (by rw [← hframes, ← htables] at hmid; exact hmid)
      rw [← hframes, hpte]
      unfold Kernel.pte
      rw [htables]
  · rw [if_pos hr] at hrest
    cases hrest

/-- The page number of a page of RAM is larger than any index. -/
theorem ramPage_shiftRight {w : Nat} (hram : RamPage (pte2pa w)) :
    maxSwapDiskEntries ≤ w >>> 10 := by
  obtain ⟨-, hlo, -⟩ := hram
  unfold pte2pa at hlo
  have hle := hlo.trans (Nat.mod_le _ _)
  rw [Nat.shiftLeft_eq] at hle
  simp only [kernbase, maxSwapDiskEntries] at *
  omega

/-- After a successful `swap_page_out` the PTE is invalid with its other
flags as they were, and reads back as the index exactly when the page
number has no bit of its own; a page of RAM always has one. -/
theorem swapIndex_readback_iff (s s' : Kernel) (pa idx root : Nat)
    (p : ProcId) (t : List (Mark × Kernel)) (hentry : s.getFrameEntry pa = some idx)
    (howner : (s.frameTable idx).owner = some p) (hroot : (s.proc p).pagetable = some root)
    (hfound : walk root (s.frameTable idx).vaddr false s = .ok (true, s, []))
    (hword : s.pte root (s.frameTable idx).vaddr < 2 ^ 64)
    (hrun : swapPageOut pa s = .ok (0, s', t)) :
    ∃ slot : Nat, (s'.frameTable idx).swapIndex = slot ∧ (s'.swapDiskTable slot).inUse = true
      ∧ (s'.swapDiskTable slot).owner = some p
      ∧ (s'.swapDiskTable slot).vaddr = (s.frameTable idx).vaddr
      ∧ isV (s'.pte root (s.frameTable idx).vaddr) = false
      ∧ (∀ b, 1 ≤ b → b < 10 → (s'.pte root (s.frameTable idx).vaddr).testBit b
            = (s.pte root (s.frameTable idx).vaddr).testBit b)
      ∧ (s'.pte root (s.frameTable idx).vaddr >>> 10 = slot ↔
          (s.pte root (s.frameTable idx).vaddr >>> 10) ||| slot = slot)
      ∧ (RamPage (pte2pa (s.pte root (s.frameTable idx).vaddr)) →
          s'.pte root (s.frameTable idx).vaddr >>> 10 ≠ slot) := by
  -- a call that returns 0 has reserved its slot
  have hres : ∃ idx p slot, Reserves s pa idx p slot := by
    by_contra hno
    rw [swapPageOut_refuses hno] at hrun
    cases hrun
  obtain ⟨idx', p', slot, hres⟩ := hres
  obtain rfl : idx = idx' := Option.some.inj (hentry.symm.trans hres.entry)
  obtain rfl : p = p' := Option.some.inj (howner.symm.trans hres.owner)
  obtain ⟨hindex, huse, hown, hvaddr, hpte⟩ := hres.swaps hroot hfound hrun
  have hlt : slot < 0 + maxSwapDiskEntries := firstIndex_lt _ hres.slot
  refine ⟨slot, hindex, huse, hown, hvaddr, ?_, ?_, ?_, ?_⟩
  · rw [hpte, isV_swappedPte]
  · intro b h1 h10
    rw [hpte, testBit_swappedPte _ _ h1 h10]
  · rw [hpte, swappedPte_shiftRight slot hword]
  · intro hram hback
    rw [hpte, swappedPte_shiftRight slot hword] at hback
    have hle := ramPage_shiftRight hram
    have hor : s.pte root (s.frameTable idx).vaddr >>> 10
        ≤ (s.pte root (s.frameTable idx).vaddr >>> 10) ||| slot :=
      Nat.left_le_or
    omega

set_option maxRecDepth 20000 in
theorem swapIndex_readback_fives : ∃ s' t, swapPageOut 0x80024000 fives = .ok (0, s', t)
      ∧ ∃ slot : Nat, (s'.frameTable 4).swapIndex = slot
        ∧ s'.pte 0x80021000 0x1000 >>> 10 ≠ slot := by
  refine ⟨_, _, rfl, ?_⟩
  obtain ⟨slot, hindex, -, -, -, -, -, -, hback⟩ := swapIndex_readback_iff
    fives _ 0x80024000 4 0x80021000 0 _ rfl rfl rfl rfl (by decide) rfl
  exact ⟨slot, hindex, hback (by decide)⟩

set_option maxRecDepth 20000 in
/-- The first page swapped out has index 0; its PTE reads back as its
page number. -/
theorem swapIndex_lost : ∃ s' t, swapPageOut 0x80024000 fives = .ok (0, s', t)
      ∧ (s'.frameTable 4).swapIndex = 0
      ∧ s'.pte 0x80021000 0x1000 >>> 10 = 0x80024 :=
  ⟨_, _, rfl, rfl, rfl⟩

end GemOS
