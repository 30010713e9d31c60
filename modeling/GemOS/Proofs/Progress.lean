/-
What the calls do when everything they need is there: the forward
direction of the specifications in `Proofs/Vm.lean` and
`Proofs/Request.lean`. A run of the system is put together from these.

The allocator is taken as `kalloc` finds it, after the rest of the
kernel has had its turn (`Kernel.interfered`).
-/
import GemOS.Proofs.Evict
import GemOS.Proofs.Pte
import GemOS.Proofs.Request

namespace GemOS

open Function Prog

-- ======== allocator

theorem EnvOp.foldl_freelist (ops : List EnvOp) :
    ∀ s s' : Kernel, s'.freelist = s.freelist → s'.held = s.held →
      (ops.foldl EnvOp.apply s').freelist = (ops.foldl EnvOp.apply s).freelist := by
  induction ops with
  | nil => exact fun _ _ hfl _ => hfl
  | cons o ops ih =>
    intro s s' hfl hhd
    refine ih _ _ ?_ ?_ <;> cases o <;> simp only [EnvOp.apply]
    · rw [hfl]
      split <;> simp [Kernel.popped, *]
    · rw [hhd]
      split <;> simp [Kernel.push, *]
    · rw [hfl]
      split <;> simp [*]
    · rw [hhd]
      split <;> simp [*]

variable {s : Kernel} {root va req idx : Nat} {rest : List Nat} {p : ProcId}

/-- What `kalloc` finds is up to the allocator alone. -/
theorem interfered_freelist {s' : Kernel} (hfl : s'.freelist = s.freelist)
    (hhd : s'.held = s.held) (henv : s'.env = s.env) :
    s'.interfered.freelist = s.interfered.freelist := by
  unfold Kernel.interfered
  rw [henv]
  cases s.env with
  | nil => exact hfl
  | cons ops rest =>
    exact EnvOp.foldl_freelist ops { s with env := rest } { s' with env := rest } hfl hhd

-- ======== page tables

theorem walk_found (alloc : Bool) (hva : va < maxva) (hlive : (s.pagetables root).live = true)
    (hmid : ((s.pagetables root).mid (va >>> 21)).isSome) :
    walk root va alloc s = .ok (true, s, []) := by
  have hdir : ((s.pagetables root).dir (va >>> 30)).isSome := by
    rw [Option.isSome_iff_ne_none] at hmid ⊢
    refine fun hd => hmid ((s.pagetables root).mid_of_dir _ ?_)
    rw [← Nat.shiftRight_add]
    exact hd
  have hwalk : walkDir root (va >>> 30) alloc s = .ok (true, s, []) := by
    simp only [walkDir, walkLevel, get_bind_run, hdir, if_true, pure_run]
  unfold walk
  rw [if_neg (Nat.not_le.mpr hva), get_bind_run, if_pos hlive, bind_run_quiet hwalk, if_pos rfl]
  simp only [walkMid, walkLevel, get_bind_run, hmid, if_true, pure_run]

/-- A valid PTE lies in a level-0 table. -/
theorem mid_of_isV (hV : isV (s.pte root va) = true) :
    ((s.pagetables root).mid (va >>> 21)).isSome := by
  refine Option.isSome_iff_ne_none.mpr fun hm => ?_
  rw [pte_of_mid_none hm, isV_zero] at hV
  cases hV

/-- One page is mapped where a level-0 table exists. -/
theorem mappages_run (pa perm : Nat) (halign : va % pgsize = 0)
    (hva : va < maxva) (hlive : (s.pagetables root).live = true)
    (hmid : ((s.pagetables root).mid (va >>> 21)).isSome) (hfree : isV (s.pte root va) = false) :
    mappages root va pgsize pa perm s = .ok (0, s.setLeaf root va (pa2pte pa ||| perm ||| pteV),
          [(.map root va, s)]) := by
  unfold mappages
  rw [if_neg (not_not.mpr halign), if_neg (by decide), if_neg (by decide)]
  show mappagesLoop root perm 1 va pa s = _
  unfold mappagesLoop
  rw [bind_run_quiet (walk_found true hva hlive hmid), if_pos rfl, get_bind_run,
    hfree, if_neg Bool.false_ne_true, bind_run_ok (note_run ..), modify_bind_run]
  rfl

-- ======== requests

/-- With a free page and a place on the disks the request of a lone
caller is served. -/
theorem submitRequest_serves (type : DiskOp) {block : Int} (buffer : Nat)
    (p : Option ProcId) (hidle : Idle s) (henv : s.env = [])
    (hfree : s.freelist = req :: rest) (hreq : req % pgsize = 0) (hlo : s.kend ≤ req)
    (hhi : req < phystop) (hplace : raidMapLogicalToPhysical s.raidMode block ≠ none) :
    ∃ s', submitRequest type block buffer p s = .ok (0, s', []) ∧ Served s s' := by
  obtain ⟨loc, hloc⟩ := Option.ne_none_iff_exists'.mp hplace
  have hadd := addRequest_run type block buffer p s
  rw [s.interfered_of_env_nil henv, hfree, hloc] at hadd
  dsimp only at hadd
  generalize hs1 : (s.popped req rest).enqueue req
    ((s.popped req rest).newRequest type block loc buffer p) = s1 at hadd
  have hkend : s1.kend = s.kend := by
    rw [← hs1, Kernel.enqueue]
    split <;> rfl
  have hlinked : Linked s1 [req] := by
    rw [← hs1]
    exact (Linked.of_eq hidle rfl rfl rfl : Linked (s.popped req rest) []).enqueue
      List.not_mem_nil rfl
  obtain ⟨rq, -, hsched⟩ := schedule_single hlinked
  obtain ⟨_, _, _, _, _, _, hs2, -⟩ := Kernel.processed_shape
    { s1 with diskQueueHead := none, diskQueueTail := none, requests := rq } req
  obtain ⟨s', hserve⟩ : ∃ s', serveNext s1 = .ok ((), s', []) := by
    unfold serveNext
    rw [bind_run_quiet hsched]
    simp only [processDiskRequest, modify_bind_run]
    refine ⟨_, kfree_run hreq (by rw [hs2]; exact hkend.trans_le hlo) hhi⟩
  have hrun : submitRequest type block buffer p s = .ok (0, s', []) := by
    unfold submitRequest addDiskRequest
    rw [bind_assoc, bind_run_quiet hadd]
    simp only [pure_bind, ne_eq, not_true_eq_false, if_false]
    rw [bind_run_quiet hserve]
    rfl
  exact ⟨_, hrun, (submitRequest_ok hidle hrun).2.2⟩

-- ======== swap out

/-- The state when `swap_page_out` has invalidated the PTE. -/
def Kernel.invalidated (s : Kernel) (root idx slot : Nat) : Kernel :=
  (s.setFrame idx { s.frameTable idx with swapped := true, swapIndex := slot }).setLeaf root
    (s.frameTable idx).vaddr
    (swappedPte (s.pte root (s.frameTable idx).vaddr) slot)

theorem markSwappedOut_run (slot : Nat) (hown : (s.frameTable idx).owner = some p)
    (hpt : (s.proc p).pagetable = some root) (hva : (s.frameTable idx).vaddr < maxva)
    (hlive : (s.pagetables root).live = true) (hmid : ((s.pagetables root).mid
      ((s.frameTable idx).vaddr >>> 21)).isSome) :
    markSwappedOut idx slot s = .ok ((), s.invalidated root idx slot, [(.swapOut idx, s)]) := by
  generalize hs : s.setFrame idx { s.frameTable idx with swapped := true, swapIndex := slot } = s1
  have hentry : s1.frameTable idx
      = { s.frameTable idx with swapped := true, swapIndex := slot } := by
    rw [← hs]
    exact update_self ..
  have hwalk : walk root (s.frameTable idx).vaddr false s1 = .ok (true, s1, []) := by
    subst hs
    exact walk_found false hva hlive hmid
  have hp : (s1.proc p).pagetable = some root := by
    subst hs
    exact hpt
  unfold markSwappedOut
  rw [bind_run_ok (note_run ..), modify_bind_run, get_bind_run, hs]
  simp only [hentry, hown, hp]
  rw [bind_run_quiet hwalk]
  simp only [if_true, modify_run, hentry]
  subst hs
  rfl

theorem getFrameEntry_index {i : Nat}
    (h : s.getFrameEntry (s.frameIndexToPa idx) = some i) : i = idx := by
  unfold Kernel.getFrameEntry at h
  split at h
  · cases h
  · split at h
    · cases h
    · rw [Kernel.frameIndexToPa, Nat.add_sub_cancel_left, Nat.mul_div_cancel _ (by decide)] at h
      exact (Option.some.inj h).symm

/-- The state at the mark of `swap_page_out`. -/
def Kernel.recorded (s : Kernel) (idx slot : Nat) (block : Int) : Kernel :=
  s.setSwap slot (s.swapEntryFor idx block)

-- ======== swap in

theorem pagetableOf_run (h : (s.proc p).pagetable = some root) :
    pagetableOf p s = .ok (root, s, []) := by
  simp only [pagetableOf, get_bind_run, h, pure_run]

/-- The state in which `swap_page_in` maps its page. -/
def Kernel.clearedAt (s : Kernel) (slot : Nat) : Kernel :=
  s.setSwap slot { s.swapDiskTable slot with
      inUse := false, owner := none, vaddr := 0, logicalBlock := -1 }

end GemOS
