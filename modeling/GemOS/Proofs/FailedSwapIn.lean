/-
What a failed swap-in loses.

`vmfault` does not return when `swap_page_in` has failed: it looks for a
page again, and if it finds one maps it, zeroed, over the PTE that said
where the page is. So a failed swap-in loses nothing when the second
search finds nothing either, and that is when no page is free and nobody
frees one. A page that is free is taken by `swap_page_in`, given back
when its request cannot be made, and found again.
-/
import GemOS.Proofs.FaultReport

namespace GemOS

open Conc Function Prog

section

variable {me : ProcId} {root va : Nat} {s s' : Kernel}

/-- The page has a frame table entry that is in use. -/
def Framed (pa : Nat) (s : Kernel) : Prop :=
  ∃ idx, s.getFrameEntry pa = some idx ∧ (s.frameTable idx).inUse = true

/-- The fault returns 0, the PTE and the swap table entry are as before,
and no page was freed whose frame table entry is in use. -/
def LosesNothing (me : ProcId) (root va : Nat) (s : Kernel) : Prop :=
  ∃ s' n, (vmfaultC me root va).solo s = .ok (0, s', n) ∧ s'.pte root va = s.pte root va
    ∧ (∀ slot, s.swapSlotOf me (pgrounddown va) = some slot →
      s'.swapDiskTable slot = s.swapDiskTable slot)
    ∧ ∀ t pa m, (Event.freed t pa, m) ∈ n → ¬ Framed pa m

-- ======== nothing to be had

/-- No page is free and nobody has one to free; the clock has a frame to
choose. -/
structure Dry (s : Kernel) : Prop where
  free : s.freelist = []
  others : s.env = [] ∨ s.held = []
  frame : s.Evictable

/-- What is left when nothing was to be had. -/
structure Fruitless (s s' : Kernel) : Prop where
  untouched : Untouched s s'
  dry : Dry s'

@[simp] def Event.unfreed : Event → Bool
  | .freed .. => false
  | _ => true

/-- A run that frees nothing. -/
abbrev FreesNone {α : Type} (c : C α) (Q : α → Kernel → Prop) (s : Kernel) : Prop :=
  wpe (fun _ => False) (fun e : Event => e.unfreed = true) c Q s

theorem Dry.refl (h : Dry s) : Fruitless s s := ⟨⟨rfl, rfl⟩, h⟩

theorem Fruitless.trans {s1 : Kernel} (h : Fruitless s s1) (h' : Fruitless s1 s') :
    Fruitless s s' := ⟨h.untouched.trans h'.untouched, h'.dry⟩

/-- No page is found. -/
theorem Dry.kalloc (h : Dry s) :
    kalloc s = .ok (none, s.interfered, []) ∧ Fruitless s s.interfered := by
  obtain ⟨fl, hd, m, e, hs, hperm⟩ := s.interfered_shape
  have hdry : Dry s.interfered := by
    rcases h.others with henv | hheld
    · rwa [s.interfered_of_env_nil henv]
    · rw [h.free, hheld, List.append_nil, List.perm_nil, List.append_eq_nil_iff] at hperm
      rw [hs]
      exact ⟨hperm.1, .inr hperm.2, h.frame⟩
  refine ⟨?_, ⟨by rw [hs], by rw [hs]⟩, hdry⟩
  rw [kalloc_run, hdry.free]

theorem Dry.submitRequestC (h : Dry s) (t : ProcId) (type : DiskOp) (block : Int) (buffer : Nat)
    (p : Option ProcId) : FreesNone (submitRequestC t type block buffer p)
      (fun r s' => r = none ∧ Fruitless s s') s :=
  .run h.kalloc.1 nofun ⟨rfl, h.kalloc.2⟩

/-- No request can be made, so no page goes out. -/
theorem Dry.swapPageOutC (h : Dry s) (t : ProcId) (pa : Nat) :
    FreesNone (swapPageOutC t pa) (fun r s' => r = -1 ∧ Fruitless s s') s := by
  refine .run (a := s) rfl (by simp) ?_
  cases s.getFrameEntry pa with
  | none => exact ⟨rfl, h.refl⟩
  | some idx =>
    dsimp only
    split
    · exact ⟨rfl, h.refl⟩
    refine .run (a := s.freeSlot) rfl (by simp) ?_
    cases s.freeSlot with
    | none => exact ⟨rfl, h.refl⟩
    | some slot =>
      by_cases hfull : s.nextSwapBlock ≥ numDisks * diskBlocksPerDisk
      · have htake : takeSwapBlock s = .ok (none, s, []) := by
          simp only [takeSwapBlock, get_bind_run, if_pos hfull, pure_run]
        exact .run htake (by simp) ⟨rfl, h.refl⟩
      · have htake : takeSwapBlock s = .ok (some s.nextSwapBlock,
            { s with nextSwapBlock := s.nextSwapBlock + 1 }, []) := by
          simp only [takeSwapBlock, get_bind_run, if_neg hfull, modify_bind_run, pure_run]
        have hstep : Fruitless s { s with nextSwapBlock := s.nextSwapBlock + 1 } :=
          ⟨⟨rfl, rfl⟩, h.free, h.others, h.frame⟩
        refine .run htake (by simp) (.run rfl (by simp)
          (.bind (hstep.dry.submitRequestC ..) fun r s' hr => ?_))
        obtain ⟨rfl, hnone⟩ := hr
        exact .run rfl (by simp) ⟨rfl, hstep.trans hnone⟩

/-- The clock chooses a frame, and its page cannot be swapped out. -/
theorem Dry.kallocOrEvictC (h : Dry s) (t : ProcId) :
    FreesNone (kallocOrEvictC t) (fun r s' => r = none ∧ Fruitless s s') s := by
  obtain ⟨hrun, hfirst⟩ := h.kalloc
  refine .run hrun nofun (.run (a := s.interfered.clockHand) rfl nofun ?_)
  obtain ⟨v, s1, hsel, ⟨table, hand, rfl, hcore⟩, -⟩ :=
    selectVictim_run s.interfered s.interfered.clockHand hfirst.dry.frame
  have hscan : Fruitless s.interfered
      { s.interfered with frameTable := table, clockHand := hand } := by
    obtain ⟨i, hi, hev⟩ := hfirst.dry.frame
    have hsame := congrArg FrameEntry.evictable (hcore i)
    exact ⟨⟨rfl, rfl⟩, hfirst.dry.free, hfirst.dry.others, i, hi, hsame ▸ hev⟩
  refine .run hsel (by simp) (.run rfl nofun (.bind (hscan.dry.swapPageOutC t _) fun r s' hr => ?_))
  obtain ⟨rfl, hnone⟩ := hr
  exact .run rfl (by simp) ⟨rfl, (hfirst.trans hscan).trans hnone⟩

theorem Dry.swapPageInC (h : Dry s) (t : ProcId) (va : Nat) :
    FreesNone (swapPageInC t va) (fun r s' => r = -1 ∧ Fruitless s s') s := by
  refine .run (a := s) rfl (by simp) ?_
  cases s.swapSlotOf t va with
  | none => exact ⟨rfl, h.refl⟩
  | some slot =>
    refine .bind (h.kallocOrEvictC t) fun r s' hr => ?_
    obtain ⟨rfl, hnone⟩ := hr
    exact .run rfl (by simp) ⟨rfl, hnone⟩

/-- The fault gives up with everything as it was. -/
theorem Dry.loses_nothing (h : Dry s) (hm : Mapped me root s) (hva : va < (s.proc me).sz)
    (hV : isV (s.pte root va) = false) (hpte : s.pte root va ≠ 0) : LosesNothing me root va s := by
  have ha := hm.aimed hva hV
  have hmid := mid_of_ne_zero hpte
  have hfault : FreesNone (vmfaultC me root va) (fun r s' => r = 0 ∧ Untouched s s') s := by
    refine .run (a := s) rfl nofun ?_
    rw [if_neg (Nat.not_le.mpr hva)]
    refine .run (walk_found false ha.bound ha.live hmid) nofun (.run (a := s) rfl nofun ?_)
    dsimp only
    rw [if_pos ⟨rfl, by simp [ha.invalid], by rw [pte_pgrounddown]; exact hpte⟩]
    refine .bind (h.swapPageInC me _) fun r s1 h1 => ?_
    obtain ⟨rfl, hnone⟩ := h1
    rw [if_neg (by decide)]
    have hsame := hnone.untouched.tables
    have hlook : ismapped root (pgrounddown va) s1 = .ok (false, s1, []) := by
      have hwalk : walk root (pgrounddown va) false s1 = .ok (true, s1, []) :=
        walk_found false ha.bound (by rw [hsame]; exact ha.live) (by rw [hsame]; exact hmid)
      unfold ismapped
      rw [bind_run_quiet hwalk, if_pos rfl, get_bind_run, Kernel.pte, hsame]
      exact congrArg (fun b => Except.ok (b, s1, [])) ha.invalid
    refine .run hlook nofun (.run rfl nofun ?_)
    have hcount : Fruitless s1 (s1.updProc me fun q => { q with pageFaults := q.pageFaults + 1 }) :=
      ⟨⟨rfl, rfl⟩, hnone.dry.free, hnone.dry.others, hnone.dry.frame⟩
    refine .bind (hcount.dry.kallocOrEvictC me) fun r s2 h2 => ?_
    obtain ⟨rfl, hagain⟩ := h2
    exact ⟨rfl, ((hnone.trans hcount).trans hagain).untouched⟩
  obtain ⟨r, s', n, hrun, ⟨rfl, hsame⟩, hn⟩ := hfault.total
  refine ⟨s', n, hrun, ?_, fun slot _ => by rw [hsame.swaps], fun t pa m hmem => ?_⟩
  · unfold Kernel.pte
    rw [hsame.tables]
  · exact absurd (hn _ hmem) (by simp)

-- ======== the second search

/-- Where the level-0 table exists, a fault that ends with 0 has found no
page. -/
theorem faultOrTouch_none {t : Notes Mark Kernel} (h : Aimed me root va s) (hs : RamStock s)
    (hmid : ((s.pagetables root).mid (va >>> 21)).isSome)
    (hrun : faultOrTouch me root va s = .ok (0, s', t)) :
    ∃ s1 t1, kallocOrEvict (s.updProc me fun q => { q with pageFaults := q.pageFaults + 1 })
      = .ok (none, s1, t1) := by
  obtain ⟨b, s0, _, _, hlook, hrest, -⟩ := bind_ok hrun
  obtain ⟨rfl, rfl⟩ := (wp_ismapped_aimed h).ok hlook
  rw [if_neg Bool.false_ne_true, faultIn, countFault, modify_bind_run] at hrest
  obtain ⟨r, s1, t1, _, hk, hmap, -⟩ := bind_ok hrest
  obtain ⟨hlook, hram⟩ := wp_kallocOrEvict.ok hk
  have hcount : Calm s0 (s0.updProc me fun q => { q with pageFaults := q.pageFaults + 1 }) :=
    .count me fun _ => rfl
  cases r with
  | none => exact ⟨s1, t1, hk⟩
  | some mem =>
    have htend := hcount.tended.trans hlook
    refine absurd rfl (((wp_mapFresh_reported (h.tended htend)
      (hram mem rfl (hcount.tended.stocked hs))).ok hmap).2 ?_)
    rw [htend.mid]
    exact hmid

end

-- ======== two machines

/-- A page in swap and no page free. -/
def drained : Kernel := { swappedOut sevens with freelist := [] }

/-- A page in swap and one page free. -/
def scarce : Kernel := { swappedOut sevens with freelist := [0x80030000] }

end GemOS
