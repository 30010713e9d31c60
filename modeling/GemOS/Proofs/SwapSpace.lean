/-
How much can be swapped out.

Slots of the swap table come back when a page comes back in; block
numbers do not. So after 16384 swap-outs there is no block left, however
few pages are out: `next_swap_block` counts the swap-outs since boot,
the table holds those that have not come back.
-/
import GemOS.Proofs.SwapPlaces

namespace GemOS

open Function Prog

-- ======== counting

/-- The slots whose entry is in use. -/
def slotsInUse (table : Nat → SwapDiskEntry) : Finset Nat :=
  (Finset.range maxSwapDiskEntries).filter fun i => (table i).inUse = true

/-- The pages swapped out so far. -/
def outsIn (n : Notes Event Kernel) : Nat :=
  n.countP fun m => match m.1 with
    | .recorded .. => true
    | _ => false

/-- The pages swapped back in so far. -/
def backsIn (n : Notes Event Kernel) : Nat :=
  n.countP fun m => match m.1 with
    | .cleared .. => true
    | _ => false

@[simp] theorem outsIn_append (n m : Notes Event Kernel) :
    outsIn (n ++ m) = outsIn n + outsIn m := List.countP_append ..

@[simp] theorem backsIn_append (n m : Notes Event Kernel) :
    backsIn (n ++ m) = backsIn n + backsIn m := List.countP_append ..

variable {m n : Notes Event Kernel} {e : SwapDiskEntry} {slot : Nat}
  {table : Nat → SwapDiskEntry} {l : Ledger} {s s' : Kernel} {t : Notes Mark Kernel}

theorem outsIn_minor (h : ∀ x ∈ m, x.1.minor = true) : outsIn m = 0 ∧ backsIn m = 0 := by
  constructor <;> refine List.countP_eq_zero.mpr fun x hx => ?_ <;>
    have hmin := h x hx <;> obtain ⟨e, s⟩ := x <;> cases e <;>
    first | exact Bool.false_ne_true | cases hmin

/-- A recorded entry is one slot more. -/
theorem slotsInUse_record (hslot : slot < maxSwapDiskEntries)
    (hfree : (table slot).inUse = false) (he : e.inUse = true) :
    (slotsInUse (update table slot e)).card = (slotsInUse table).card + 1 := by
  have hins : slotsInUse (update table slot e) = insert slot (slotsInUse table) := by
    ext i
    simp only [slotsInUse, Finset.mem_filter, Finset.mem_insert, Finset.mem_range]
    by_cases hi : i = slot
    · subst hi
      simp [he, hslot]
    · simp [hi]
  rw [hins, Finset.card_insert_of_notMem]
  simp [slotsInUse, hfree]

theorem slotsInUse_clear (hslot : slot < maxSwapDiskEntries)
    (huse : (table slot).inUse = true) (he : e.inUse = false) :
    (slotsInUse (update table slot e)).card + 1 = (slotsInUse table).card := by
  have hfree : (update table slot e slot).inUse = false := by
    rw [update_self]
    exact he
  have hback := slotsInUse_record hslot hfree huse
  rw [update_idem, update_eq_self] at hback
  exact hback.symm

-- ======== the invariant

/-- RAID 0 throughout, and every request gets its page. -/
def RequestsSucceed (c : SwapCall) (n : Notes Event Kernel) (s : Kernel) :
    Prop := c.Lossless s ∧ ModeFixed c n s

/-- The counter counts swap-outs, the table the pages that are still
out. -/
structure SpaceCounted (n : Notes Event Kernel) (l : Ledger) : Prop where
  mode : l.mode = .raid0
  next : l.next = outsIn n
  capped : l.next ≤ numDisks * diskBlocksPerDisk
  out : (slotsInUse l.table).card + backsIn n = outsIn n

theorem SpaceCounted.of_eq {l' : Ledger} (h : SpaceCounted n l)
    (htable : l'.table = l.table) (hnext : l'.next = l.next)
    (hmode : l'.mode = l.mode) : SpaceCounted n l' := by
  obtain ⟨h1, h2, h3, h4⟩ := h
  rw [← hmode] at h1
  rw [← hnext] at h2 h3
  rw [← htable] at h4
  exact ⟨h1, h2, h3, h4⟩

/-- Notes without a swap-out or a return of a page. -/
theorem SpaceCounted.append (h : SpaceCounted n l) (hout : outsIn m = 0)
    (hback : backsIn m = 0) : SpaceCounted (n ++ m) l := by
  obtain ⟨h1, h2, h3, h4⟩ := h
  refine ⟨h1, ?_, h3, ?_⟩
  · rw [outsIn_append, hout]
    exact h2
  · rw [outsIn_append, backsIn_append, hout, hback]
    exact h4

/-- Every effect is counted. -/
theorem SpaceCounted.move {t : ProcId} {h : Notes Event Kernel}
    (hs : SpaceCounted h s.ledger) (hm : SwapMove False t s n s') :
    SpaceCounted (h ++ n) s'.ledger := by
  cases hm with
  | aside hl hev =>
    obtain ⟨hout, hback⟩ := outsIn_minor hev
    exact hl ▸ hs.append hout hback
  | leak hf => exact hf.elim
  | out hslot hcap h0 hh huse _ hl =>
    obtain ⟨a, b, c, rfl, -⟩ := hh.notes
    rw [hl, h0]
    have hnext : s.nextSwapBlock = outsIn h := hs.next
    have hcard := slotsInUse_record
      (by simpa using firstIndex_lt _ hslot) (freeSlot_spec hslot).1 huse
    have hout : (slotsInUse s.swapDiskTable).card + backsIn h = outsIn h := hs.out
    refine ⟨hs.mode, ?_, ?_, ?_⟩
    · show s.nextSwapBlock + 1 = _
      rw [outsIn_append, Int.natCast_add, ← hnext]
      rfl
    · exact hcap
    · show (slotsInUse (update _ _ _)).card + backsIn _ = outsIn _
      rw [hcard, backsIn_append, outsIn_append, ← hout]
      show _ + 1 + (backsIn h + 0) = _ + backsIn h + 1
      omega
  | @fetch _ _ _ slot _ _ hslot huse _ _ hh hl =>
    obtain ⟨a, b, c, rfl, -⟩ := hh.notes
    rw [hl]
    have hcard := slotsInUse_clear (e := { s.swapDiskTable slot with
      inUse := false, owner := none, vaddr := 0, logicalBlock := -1 }) hslot
      huse rfl
    have hout : (slotsInUse s.swapDiskTable).card + backsIn h = outsIn h := hs.out
    refine ⟨hs.mode, ?_, hs.capped, ?_⟩
    · show s.nextSwapBlock = _
      rw [outsIn_append]
      exact hs.next
    · show (slotsInUse (update _ _ _)).card + backsIn _ = outsIn _
      rw [backsIn_append, outsIn_append, ← hout, ← hcard]
      show _ + (backsIn h + 1) = _ + 1 + backsIn h + 0
      omega

/-- The counts hold in every run. -/
theorem SpaceCounted.run (hr : SwapRun (fun s => SwapStart s ∧ s.raidMode = .raid0)
      RequestsSucceed n s) : SpaceCounted n s.ledger := by
  refine (SwapRun.keeps False (I := fun n s => SpaceCounted n s.ledger) ?_ ?_ ?_ ?_ ?_ hr).2
  · rintro s ⟨hs, hmode⟩
    have hnone : slotsInUse s.swapDiskTable = ∅ := Finset.filter_eq_empty_iff.mpr fun i _ hi =>
        absurd ((hs.free i).symm.trans hi) (by decide)
    refine ⟨hs.idle, hmode, hs.next, ?_, ?_⟩
    · show s.nextSwapBlock ≤ _
      rw [hs.next]
      decide
    · show (slotsInUse s.swapDiskTable).card + 0 = 0
      rw [hnone]
      rfl
  · exact fun _ _ _ _ hc => hc.1
  · exact fun _ _ _ _ _ hI hm => hI.move hm
  · exact fun _ _ _ _ hc => hc.2.elim
  · exact fun _ _ _ hI hap => ⟨hap, hI.of_eq hap.swapDiskTable hap.nextSwapBlock hap.raidMode⟩

-- ======== full or not

/-- A `swap_page_out` of frame `pa` fails for lack of space only when the
pages that are out fill the disks. -/
def FailsOnlyWhenFull (s : Kernel) (pa : Nat) : Prop :=
  ∀ s' t, swapPageOut pa s = .ok (-1, s', t) →
    (numDisks * diskBlocksPerDisk : Int) ≤ (slotsInUse s.swapDiskTable).card

/-- A slot is found while not all are in use. -/
theorem freeSlot_isSome (h : (slotsInUse s.swapDiskTable).card < maxSwapDiskEntries) :
    ∃ slot, s.freeSlot = some slot := by
  obtain ⟨i, hi, hfree⟩ : ∃ i ∈ Finset.range maxSwapDiskEntries,
      ¬ (s.swapDiskTable i).inUse = true := by
    by_contra hall
    push Not at hall
    have hfull : slotsInUse s.swapDiskTable = Finset.range maxSwapDiskEntries :=
      Finset.filter_true_of_mem hall
    rw [hfull, Finset.card_range] at h
    exact absurd h (Nat.lt_irrefl _)
  obtain ⟨j, -, hj⟩ := firstIndex_exists maxSwapDiskEntries (Nat.zero_le i)
    (by simpa using hi) (f := fun i => !(s.swapDiskTable i).inUse) (by simpa using hfree)
  exact ⟨j, hj⟩

/-- A request that finds a page and a place is queued. -/
theorem submitRequest_succeeds {type : DiskOp} {block : Int} {buffer : Nat}
    {p : Option ProcId} {r : Int} (hst : Stocked s)
    (hplace : raidMapLogicalToPhysical s.raidMode block ≠ none)
    (h : submitRequest type block buffer p s = .ok (r, s', t)) : r = 0 := by
  cases submitRequest_cases h with
  | dry hfree => exact absurd hfree hst
  | refused _ hnone => exact absurd hnone hplace
  | queued _ _ _ => rfl

/-- A block is left: only the table can be full. -/
theorem swapPageOut_fails {pa idx : Nat} {p : ProcId} (hentry : s.getFrameEntry pa = some idx)
    (howner : (s.frameTable idx).owner = some p) (hst : Stocked s) (hmode : s.raidMode = .raid0)
    (hnext : s.nextSwapBlock < numDisks * diskBlocksPerDisk)
    (h : swapPageOut pa s = .ok (-1, s', t)) : s.freeSlot = none := by
  cases hslot : s.freeSlot with
  | none => rfl
  | some slot =>
    rw [swapPageOut_run hentry howner hslot hnext] at h
    obtain ⟨r, s1, t1, t2, hsub, h1, -⟩ := bind_ok h
    have hst' : Stocked { s with nextSwapBlock := s.nextSwapBlock + 1 } := hst.of_eq rfl rfl rfl
    have hr : r = 0 := submitRequest_succeeds hst' (by rw [hmode]; exact raid0_total hnext) hsub
    rw [if_neg (not_not.mpr hr)] at h1
    obtain ⟨u, s2, t3, t4, -, h2, -⟩ := bind_ok h1
    obtain ⟨u, s3, t5, t6, -, hret, -⟩ := bind_ok h2
    cases hret

/-- A `swap_page_out` fails for lack of space only on full disks exactly
as long as fewer than 16384 pages have been swapped out since boot, or
none of them has come back. -/
theorem swap_space_iff {n : Notes Event Kernel} {s : Kernel} {pa idx : Nat} {p : ProcId}
    (hr : SwapRun (fun s => SwapStart s ∧ s.raidMode = .raid0) RequestsSucceed n s)
    (hentry : s.getFrameEntry pa = some idx)
    (howner : (s.frameTable idx).owner = some p) (hst : Stocked s) : FailsOnlyWhenFull s pa
      ↔ (outsIn n : Int) < numDisks * diskBlocksPerDisk ∨ backsIn n = 0 := by
  obtain ⟨hmode, hnext, hcap, hout⟩ := SpaceCounted.run hr
  change s.raidMode = .raid0 at hmode
  change s.nextSwapBlock = outsIn n at hnext
  change s.nextSwapBlock ≤ _ at hcap
  change (slotsInUse s.swapDiskTable).card + backsIn n = outsIn n at hout
  simp only [numDisks, diskBlocksPerDisk] at hcap ⊢
  constructor
  · intro hfull
    by_contra hnot
    push Not at hnot
    obtain ⟨slot, hslot⟩ := freeSlot_isSome (s := s) (by
      simp only [maxSwapDiskEntries]
      omega)
    have hle := hfull _ _ (swapPageOut_refused hentry howner hslot (by
      simp only [numDisks, diskBlocksPerDisk]
      omega))
    simp only [numDisks, diskBlocksPerDisk] at hle
    omega
  · intro hcond s' t hrun
    by_contra hlt
    simp only [numDisks, diskBlocksPerDisk] at hlt
    obtain ⟨slot, hslot⟩ := freeSlot_isSome (s := s) (by
      simp only [maxSwapDiskEntries]
      omega)
    have hnone := swapPageOut_fails hentry howner hst hmode (by
      simp only [numDisks, diskBlocksPerDisk]
      omega) hrun
    rw [hnone] at hslot
    cases hslot

theorem fives_start : SwapStart fives ∧ fives.raidMode = .raid0 :=
  ⟨⟨fun _ => rfl, rfl, idle_iff.mpr ⟨rfl, rfl⟩⟩, rfl⟩

theorem stocked_of_env_nil (henv : s.env = []) (hfree : s.freelist ≠ []) : Stocked s := by
  unfold Stocked
  rw [s.interfered_of_env_nil henv]
  exact hfree

set_option maxRecDepth 20000 in
/-- After one swap-out there is room. -/
theorem swap_space_after_one : ∃ n s, SwapRun (fun s => SwapStart s ∧ s.raidMode = .raid0)
        RequestsSucceed n s
      ∧ s.nextSwapBlock = 1 ∧ FailsOnlyWhenFull s 0x80024000 := by
  have hst : Stocked fives := stocked_of_env_nil rfl (by decide)
  have hstart : SwapRun (fun s => SwapStart s ∧ s.raidMode = .raid0)
      RequestsSucceed [] fives := .init fives_start
  obtain ⟨n, hr⟩ := hstart.swapPageOut (t := 0) ⟨⟨hst, rfl⟩, trivial⟩
    (show swapPageOut 0x80024000 fives = .ok (0, swappedOut fives, _) from rfl)
  have hone : (outsIn n : Int) = 1 := (SpaceCounted.run hr).next.symm
  have hst' : Stocked (swappedOut fives) := stocked_of_env_nil rfl (by decide)
  have hentry : (swappedOut fives).getFrameEntry 0x80024000 = some 4 := rfl
  refine ⟨n, _, hr, rfl, (swap_space_iff hr hentry (p := 0) rfl hst').mpr (.inl ?_)⟩
  rw [hone]
  decide

-- ======== the counter runs out

/-- The one page of a process after `k` trips to the disk. -/
def tripped (k : Int) : Kernel := { fives with nextSwapBlock := k }

/-- The same page on the disk, its PTE zero. -/
def trippedOut (k : Int) : Kernel :=
  { fives with
    pagetables := update (fun _ => .dead) 0x80021000
      ((PageTable.empty.linkDir 0 0x80022000).linkMid 0 0x80023000)
    swapDiskTable := update fives.swapDiskTable 0
      (fives.swapEntryFor 4 k)
    nextSwapBlock := k + 1 }

set_option maxRecDepth 20000 in
theorem tripped_out {k : Int} (hk : k < numDisks * diskBlocksPerDisk) :
    ∃ s' t, swapPageOut 0x80024000 (tripped k) = .ok (0, s', t)
      ∧ Apart s' (trippedOut k) := by
  obtain ⟨s1, hsub, hserved⟩ := submitRequest_serves (s := tripped (k + 1)) .write 0x80024000
    (some 0) (idle_iff.mpr ⟨rfl, rfl⟩) rfl rfl rfl (show fives.kend ≤ 0x80030000 by decide)
    (by decide) (raid0_total hk)
  have hpt : (s1.proc 0).pagetable = some 0x80021000 := congrArg Proc.pagetable (hserved.procs 0)
  obtain ⟨_, _, _, _, _, _, _, _, _, _, _, hs⟩ := hserved.shape
  have hframe : s1.frameTable = fives.frameTable := by rw [hs]; rfl
  have htables : s1.pagetables = fives.pagetables := by rw [hs]; rfl
  have hown : ((s1.recorded 4 0 k).frameTable 4).owner = some 0 :=
    congrArg (fun f => (f 4).owner) hframe
  have hmark := markSwappedOut_run 0 hown hpt
    (by rw [Kernel.recorded, Kernel.setSwap, hframe]; decide)
    (by rw [Kernel.recorded, Kernel.setSwap, htables]; rfl)
    (by rw [Kernel.recorded, Kernel.setSwap, htables, hframe]; decide)
  have hentry : (tripped k).getFrameEntry 0x80024000 = some 4 :=
    show fives.getFrameEntry 0x80024000 = some 4 from rfl
  have howner : ((tripped k).frameTable 4).owner = some 0 := rfl
  have hslot : (tripped k).freeSlot = some 0 := rfl
  have hrun := swapPageOut_run hentry howner hslot hk
  refine ⟨_, _, hrun.trans ((bind_run_quiet hsub).trans (ok_bind rfl (ok_bind hmark rfl))), ?_⟩
  constructor <;> rw [Kernel.invalidated, Kernel.recorded, hs] <;> rfl

set_option maxRecDepth 20000 in
theorem trippedOut_back (k : Int) (hk : k < numDisks * diskBlocksPerDisk) :
    ∃ s' t, swapPageIn 0 0x1000 (trippedOut k) = .ok (0, s', t)
      ∧ Apart s' (tripped (k + 1)) := by
  obtain ⟨s1, hsub, hserved⟩ := submitRequest_serves
    (s := (trippedOut k).popped 0x80030000 [0x80031000]) .read 0x80030000
    (some 0) (idle_iff.mpr ⟨rfl, rfl⟩) rfl rfl rfl (show fives.kend ≤ 0x80031000 by decide)
    (by decide) (raid0_total hk)
  have hpt : (s1.proc 0).pagetable = some 0x80021000 := congrArg Proc.pagetable (hserved.procs 0)
  obtain ⟨_, _, _, _, _, _, _, _, _, _, _, hs⟩ := hserved.shape
  have htables : s1.pagetables = (trippedOut k).pagetables := by rw [hs]; rfl
  have hlive : ((s1.clearedAt 0).pagetables 0x80021000).live = true := by
    rw [Kernel.clearedAt, Kernel.setSwap, htables]
    rfl
  have halign : 0x1000 % pgsize = 0 := rfl
  have hmap := mappages_run 0x80030000 (pteW ||| pteU ||| pteR) halign (by decide) hlive
    (by rw [Kernel.clearedAt, Kernel.setSwap, htables]; rfl) (by
      rw [Kernel.pte, Kernel.clearedAt, Kernel.setSwap, htables]
      show isV (((PageTable.empty.linkDir 0 0x80022000).linkMid 0 0x80023000).leaf 1) = false
      rfl)
  have hslot : (trippedOut k).swapSlotOf 0 0x1000 = some 0 := rfl
  have hpage : kallocOrEvict (trippedOut k)
      = .ok (some 0x80030000, (trippedOut k).popped 0x80030000 [0x80031000], []) := rfl
  obtain ⟨_, hreg⟩ := ((s1.clearedAt 0).setLeaf 0x80021000 0x1000 (pa2pte
    0x80030000 ||| (pteW ||| pteU ||| pteR) ||| pteV)).registered_shape 0 0x1000 0x80030000
  simp only [swapPageIn, get_bind_run, hslot]
  rw [bind_run_quiet hpage]
  dsimp only
  rw [bind_run_quiet (by exact hsub)]
  simp only [ne_eq, not_true_eq_false, if_false, clearSwap, modify_bind_run]
  rw [← Kernel.clearedAt, bind_run_quiet (pagetableOf_run (by exact hpt)), bind_run_ok hmap]
  simp only [not_true_eq_false, if_false, updateFrameTable, modify_bind_run, hreg]
  refine ⟨_, _, rfl, ?_⟩
  rw [Kernel.clearedAt, hs]
  refine ⟨?_, rfl, rfl, rfl, rfl⟩
  funext i
  show fives.swapDiskTable i = update (update fives.swapDiskTable 0 (fives.swapEntryFor 4 k)) 0 _ i
  by_cases hi : i = 0
  · rw [hi, update_self]
    rfl
  · rw [update_of_ne hi, update_of_ne hi]

/-- Any number of trips up to the capacity is a run. -/
theorem tripped_run (k : Nat) (hk : (k : Int) ≤ numDisks * diskBlocksPerDisk) :
    ∃ n, SwapRun (fun s => SwapStart s ∧ s.raidMode = .raid0) RequestsSucceed n (tripped k) := by
  induction k with
  | zero => exact ⟨[], .init fives_start⟩
  | succ k ih =>
    rw [Int.natCast_succ] at hk ⊢
    obtain ⟨n, hr⟩ := ih (by omega)
    have hst : Stocked (tripped k) := stocked_of_env_nil rfl (by
      show fives.freelist ≠ []
      decide)
    obtain ⟨s1, t1, hout, hap1⟩ := tripped_out (k := k) (by omega)
    obtain ⟨n1, hr1⟩ := hr.swapPageOut (t := 0) ⟨⟨hst, rfl⟩, trivial⟩ hout
    obtain ⟨s2, t2, hback, hap2⟩ := trippedOut_back k (by omega)
    have hpage : ∀ s' m, kalloc (trippedOut k) = .ok (none, s', m) →
        Stocked s' := fun _ _ hrun => nomatch hrun
    obtain ⟨n2, hr2⟩ := SwapRun.swapPageIn (hr1.world hap1) ⟨⟨hpage, rfl⟩, trivial⟩ hback
    exact ⟨n2, hr2.world hap2⟩

set_option maxRecDepth 20000 in
/-- After 16384 trips of one page nothing is on the disks, and nothing
can be swapped out any more. -/
theorem swap_space_lost : ∃ n s, SwapRun (fun s => SwapStart s ∧ s.raidMode = .raid0)
        RequestsSucceed n s
      ∧ s.getFrameEntry 0x80024000 = some 4
      ∧ (s.frameTable 4).owner = some 0 ∧ Stocked s
      ∧ (slotsInUse s.swapDiskTable).card = 0
      ∧ ¬ FailsOnlyWhenFull s 0x80024000 := by
  obtain ⟨n, hr⟩ := tripped_run 16384 (by decide)
  rw [show ((16384 : Nat) : Int) = 16384 from rfl] at hr
  have hentry : (tripped 16384).getFrameEntry 0x80024000 = some 4 := rfl
  have hnone : (slotsInUse (tripped 16384).swapDiskTable).card = 0 := Finset.card_eq_zero.mpr
      (Finset.filter_eq_empty_iff.mpr fun i _ hi => nomatch hi)
  refine ⟨n, _, hr, hentry, rfl, stocked_of_env_nil rfl (by decide), hnone, fun hfull => ?_⟩
  have hslot : (tripped 16384).freeSlot = some 0 := rfl
  have hle := hfull _ _ (swapPageOut_refused (p := 0) hentry rfl hslot (by decide))
  rw [hnone] at hle
  exact absurd hle (by decide)

end GemOS
