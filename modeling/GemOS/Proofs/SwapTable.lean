/-
The swap table and the page tables, over whole runs.

An entry of the swap table is written when its page goes out and cleared
when `swap_page_in` brings the page back; in between the PTE of the page
is non-zero and invalid. Nothing else clears an entry. So the two stay in
step only as long as no page is mapped over a swapped-out one, and no
address space with swapped-out pages is cut back, replaced or dismantled
(`SwapsKept`).

# History

`SwappedOut n p root va` says that the last thing that happened to the
page was that it was swapped out: since then process `p` has kept its
table and its size above the page, and nothing has been mapped there. A
mapping over a PTE that is not zero is a swap-in; `SwapInOwn` says that
it is of such a page.
-/
import GemOS.Proofs.KeptSystem

namespace GemOS

open Function Prog Conc

-- ======== properties

/-- The PTE of a page that has been swapped out. -/
def IsSwapped (w : Nat) : Prop := w ≠ 0 ∧ isV w = false

/-- Entry `i` is for address `va` of process `p`. -/
def SwapEntry (s : Kernel) (i : Nat) (p : ProcId) (va : Nat) : Prop :=
  (s.swapDiskTable i).inUse = true ∧ (s.swapDiskTable i).owner = some p
    ∧ (s.swapDiskTable i).vaddr = va

/-- Entries in use and swapped-out pages of live processes are the same
thing. -/
structure SwapTableConsistent (s : Kernel) : Prop where
  owned : ∀ i, (s.swapDiskTable i).inUse = true → ∃ p root,
    SwapEntry s i p (s.swapDiskTable i).vaddr ∧ (s.proc p).state ≠ .unused
      ∧ (s.proc p).pagetable = some root
      ∧ IsSwapped (s.pte root (s.swapDiskTable i).vaddr)
  listed : ∀ p root v, (s.proc p).state ≠ .unused → (s.proc p).pagetable = some root →
    IsSwapped ((s.pagetables root).leaf v) →
    ∃ i < maxSwapDiskEntries, SwapEntry s i p (v * pgsize)
  unique : ∀ i j p va, SwapEntry s i p va → SwapEntry s j p va → i = j

/-- What ends the life of a page of process `p`. -/
def Mark.supersedes (p : ProcId) (root va : Nat) : Mark → Prop
  | .map r a => r = root ∧ a = va
  | .commit q | .reap q => q = p
  | .shrink q lo => q = p ∧ lo ≤ va
  | .unmap .. | .swapOut _ => False

/-- The page was swapped out and nothing has happened to it since (module
comment). -/
def SwappedOut (n : Notes Mark Kernel) (p : ProcId) (root va : Nat) : Prop :=
  ∃ a idx s b, n = a ++ (.swapOut idx, s) :: b
    ∧ (s.frameTable idx).owner = some p ∧ (s.frameTable idx).vaddr = va
    ∧ (s.proc p).pagetable = some root
    ∧ ∀ x ∈ b, ¬ x.1.supersedes p root va

/-- A mapping over a PTE that is not zero brings back the page that the
process itself had swapped out. -/
def SwapInOwn (n : Notes Mark Kernel) : Mark × Kernel → Prop
  | (.map root va, s) => s.pte root va ≠ 0 →
      ∃ p, (s.proc p).pagetable = some root ∧ SwappedOut n p root va
  | _ => True

/-- Frames are swapped out by entries that tell the truth, nothing is
mapped over a swapped-out page, and no address space that has one there
is cut back, replaced or dismantled. -/
def SwapsKept : Mark → Kernel → Prop
  | .swapOut idx, s => Accurate s idx
  | .map root va, s => ∀ i p, SwapEntry s i p va → (s.proc p).pagetable ≠ some root
  | .commit p, s | .reap p, s => ∀ i va, ¬ SwapEntry s i p va
  | .shrink p lo, s => ∀ i va, SwapEntry s i p va → va < lo
  | .unmap .., _ => True

-- ======== history

variable {n : Notes Mark Kernel} {s : Kernel} {g : Ghost}

variable {p : ProcId} {root va i slot v w : Nat} {t n' : Notes Mark Kernel}
  {s' : Kernel} {g' : Ghost} {x : Option ProcId}

theorem SwappedOut.append (h : SwappedOut n p root va) (ht : ∀ x ∈ t, ¬ x.1.supersedes p root va) :
    SwappedOut (n ++ t) p root va := by
  obtain ⟨a, idx, s, b, rfl, howner, hva, hpt, hb⟩ := h
  refine ⟨a, idx, s, b ++ t, ?_, howner, hva, hpt, fun x hx => ?_⟩
  · rw [List.append_assoc, List.cons_append]
  · grind

theorem SwappedOut.snoc {x : Mark × Kernel} (h : SwappedOut n p root va)
    (hx : ¬ x.1.supersedes p root va) : SwappedOut (n ++ [x]) p root va := by
  refine h.append fun y hy => ?_
  rw [List.mem_singleton.mp hy]
  exact hx

-- ======== invariant

/-- Page number `v` of the table of `p` is out, by the PTE and by the
history. -/
structure OutSince (g : Ghost) (n : Notes Mark Kernel) (s : Kernel)
    (p : ProcId) (root v : Nat) : Prop where
  attached : Attached g s p root
  pte : IsSwapped ((s.pagetables root).leaf v)
  history : SwappedOut n p root (v * pgsize)

/-- An entry for the page, or the running operation knows about it. -/
def Listed (g : Ghost) (s : Kernel) (p : ProcId) (va : Nat) : Prop :=
  (∃ i, SwapEntry s i p va) ∨ g.pending = some (p, va)

/-- The invariant: what is listed is out and what is out is listed, once. -/
structure SwapTracked (g : Ghost) (n : Notes Mark Kernel) (s : Kernel) : Prop where
  own : Own g s
  bound : ∀ i, (s.swapDiskTable i).inUse = true → i < maxSwapDiskEntries
  owner : ∀ i, (s.swapDiskTable i).inUse = true → ∃ p va, SwapEntry s i p va
  out : ∀ p va, Listed g s p va → ∃ root v, va = v * pgsize ∧ OutSince g n s p root v
  listed : ∀ root v, IsSwapped ((s.pagetables root).leaf v) →
    ∃ p, Attached g s p root ∧ Listed g s p (v * pgsize)
  unique : ∀ i j p va, SwapEntry s i p va → SwapEntry s j p va → i = j
  pending : ∀ i p va, SwapEntry s i p va → g.pending ≠ some (p, va)
  trace : Traced SwapInOwn n

theorem SwapEntry.congr (hswaps : s'.swapDiskTable = s.swapDiskTable) :
    SwapEntry s' i p va ↔ SwapEntry s i p va := by
  unfold SwapEntry
  rw [hswaps]

theorem Listed.congr (hswaps : s'.swapDiskTable = s.swapDiskTable)
    (hpend : g'.pending = g.pending) : Listed g' s' p va ↔ Listed g s p va := by
  unfold Listed SwapEntry
  rw [hswaps, hpend]

theorem swapEntry_setSwap {e : SwapDiskEntry} : SwapEntry (s.setSwap slot e) i p va
      ↔ (i = slot ∧ e.inUse = true ∧ e.owner = some p ∧ e.vaddr = va)
        ∨ (i ≠ slot ∧ SwapEntry s i p va) := by
  have hget : (s.setSwap slot e).swapDiskTable i = update s.swapDiskTable slot e i := rfl
  unfold SwapEntry
  rw [hget]
  by_cases hi : i = slot
  · rw [hi, update_self]
    simp
  · rw [update_of_ne hi]
    simp [hi]

section

variable (h : SwapTracked g n s)

include h

/-- The page of an attached table that is listed is out. -/
theorem SwapTracked.outSince (hp : Attached g s p root)
    (hl : Listed g s p (v * pgsize)) : OutSince g n s p root v := by
  obtain ⟨r, w, hva, hout⟩ := h.out p _ hl
  obtain rfl := mul_pgsize_inj hva
  obtain rfl := hout.attached.unique hp
  exact hout

/-- Moves that leave the swap table alone, and neither take a listed page
out nor put one in. -/
theorem SwapTracked.transfer (hown : Own g' s')
    (hswaps : s'.swapDiskTable = s.swapDiskTable) (hpend : g'.pending = g.pending)
    (hout : ∀ p root v, Listed g s p (v * pgsize) →
      OutSince g n s p root v → OutSince g' n' s' p root v)
    (hback : ∀ root v, IsSwapped ((s'.pagetables root).leaf v) →
      IsSwapped ((s.pagetables root).leaf v))
    (htrace : Traced SwapInOwn n') : SwapTracked g' n' s' := by
  have hlist : ∀ {p va}, Listed g' s' p va ↔ Listed g s p va := Listed.congr hswaps hpend
  have hentry : ∀ {i p va}, SwapEntry s' i p va ↔ SwapEntry s i p va := SwapEntry.congr hswaps
  refine ⟨hown, ?_, ?_, ?_, ?_, ?_, ?_, htrace⟩
  · rw [hswaps]
    exact h.bound
  · intro i hi
    rw [hswaps] at hi
    obtain ⟨p, va, hi⟩ := h.owner i hi
    exact ⟨p, va, hentry.mpr hi⟩
  · grind [h.out]
  · intro root v hsw
    obtain ⟨p, hp, hl⟩ := h.listed root v (hback root v hsw)
    exact ⟨p, (hout p root v hl (h.outSince hp hl)).attached, hlist.mpr hl⟩
  · exact fun i j p va hi hj => h.unique i j p va (hentry.mp hi) (hentry.mp hj)
  · rw [hpend]
    exact fun i p va hi => h.pending i p va (hentry.mp hi)

/-- Moves that change no leaf. -/
theorem SwapTracked.leaves (hown : Own g' s')
    (hswaps : s'.swapDiskTable = s.swapDiskTable) (hpend : g'.pending = g.pending)
    (hleaf : ∀ root v, (s'.pagetables root).leaf v = (s.pagetables root).leaf v)
    (hatt : ∀ p root va, Listed g s p va → Attached g s p root → Attached g' s' p root)
    (hn : ∀ p root va, Listed g s p va → SwappedOut n p root va → SwappedOut n' p root va)
    (htrace : Traced SwapInOwn n') : SwapTracked g' n' s' := by
  refine h.transfer hown hswaps hpend (fun p root v hl ho => ?_)
    (fun root v => by rw [hleaf]; exact id) htrace
  refine ⟨hatt p root _ hl ho.attached, ?_, hn p root _ hl ho.history⟩
  rw [hleaf]
  exact ho.pte

/-- Moves that note nothing. -/
theorem SwapTracked.quiet (hown : Own g' s')
    (hswaps : s'.swapDiskTable = s.swapDiskTable) (hpend : g'.pending = g.pending)
    (hleaf : ∀ root v, (s'.pagetables root).leaf v = (s.pagetables root).leaf v)
    (hatt : ∀ p root, Attached g s p root → Attached g' s' p root) :
    SwapTracked g' (n ++ []) s' := by
  rw [List.append_nil]
  exact h.leaves hown hswaps hpend hleaf (fun p root _ _ => hatt p root) (fun _ _ _ _ => id) h.trace

/-- A store to a leaf that is of no swapped-out page, before or after. -/
theorem SwapTracked.store (hown : Own g' s') (hswaps : s'.swapDiskTable = s.swapDiskTable)
    (hpend : g'.pending = g.pending) (hdying : g'.dying = g.dying) (hproc : s'.proc = s.proc)
    (htab : s'.pagetables = (s.setLeaf root va w).pagetables)
    (hbefore : ¬ IsSwapped (s.pte root va)) (hafter : ¬ IsSwapped w)
    (hn : ∀ p r v, Attached g s p r → SwappedOut n p r (v * pgsize) →
      SwappedOut n' p r (v * pgsize))
    (htrace : Traced SwapInOwn n') : SwapTracked g' n' s' := by
  refine h.transfer hown hswaps hpend (fun p r v _ ho => ?_) (fun r v hsw => ?_) htrace
  · refine ⟨?_, ?_, hn p r v ho.attached ho.history⟩
    · unfold Attached
      rw [hdying, hproc]
      exact ho.attached
    · rw [htab]
      rcases s.setLeaf_leaf_cases root va w r v with heq | ⟨rfl, rfl, -⟩
      · rw [heq]
        exact ho.pte
      · exact absurd ho.pte hbefore
  · rw [htab] at hsw
    rcases s.setLeaf_leaf_cases root va w r v with heq | ⟨rfl, rfl, heq⟩
    · rw [heq] at hsw
      exact hsw
    · rw [heq] at hsw
      exact absurd hsw hafter

omit h in
theorem not_isSwapped_zero : ¬ IsSwapped 0 := fun h => h.1 rfl

omit h in
theorem not_isSwapped_valid (hV : isV w = true) : ¬ IsSwapped w :=
  fun h => absurd (hV.symm.trans h.2) nofun

/-- A table that is no process's has no swapped-out pages. -/
theorem SwapTracked.spare_none (hspare : g.spare = some (root, x)) :
    ¬ IsSwapped ((s.pagetables root).leaf v) := by
  intro hsw
  obtain ⟨p, hp, -⟩ := h.listed root v hsw
  exact (h.own.attached p root hp).2.2 x hspare

/-- Neither has one that does not exist. -/
theorem SwapTracked.hand_none (hhand : root ∈ g.hand) :
    ¬ IsSwapped ((s.pagetables root).leaf v) := by
  intro hsw
  obtain ⟨p, hp, -⟩ := h.listed root v hsw
  have hroot : Holds g s (.root root) root := ⟨rfl, (h.own.attached p root hp).1⟩
  exact absurd (h.own.exclusive hroot (show Holds g s .hand root from hhand)) nofun

/-- A table without swapped-out pages is replaced by an empty one. -/
theorem SwapTracked.replace {t : PageTable}
    (hown : Own g' s') (hswaps : s'.swapDiskTable = s.swapDiskTable)
    (hpend : g'.pending = g.pending) (hdying : g'.dying = g.dying) (hproc : s'.proc = s.proc)
    (htab : s'.pagetables = update s.pagetables root t)
    (hbefore : ∀ v, ¬ IsSwapped ((s.pagetables root).leaf v))
    (hafter : ∀ v, t.leaf v = 0) : SwapTracked g' n s' := by
  refine h.transfer hown hswaps hpend (fun p r v _ ho => ?_) (fun r v hsw => ?_) h.trace
  · refine ⟨?_, ?_, ho.history⟩
    · unfold Attached
      rw [hdying, hproc]
      exact ho.attached
    · rw [htab, update_of_ne]
      · exact ho.pte
      · intro hr
        exact hbefore v (hr ▸ ho.pte)
  · by_cases hr : r = root
    · rw [htab, hr, update_self, hafter] at hsw
      exact absurd hsw not_isSwapped_zero
    · rw [htab, update_of_ne hr] at hsw
      exact hsw

-- ======== mappings

/-- A page is mapped, possibly the one being swapped in; no entry is for
it any more. -/
theorem SwapTracked.mapped (hown : Own g' s')
    (hswaps : s'.swapDiskTable = s.swapDiskTable) (hpend' : g'.pending = none)
    (hpend : ∀ p a, g.pending = some (p, a) → a = va ∧ Attached g s p root)
    (hst : LeafStored g s g' s' root va w) (hmid : ((s.pagetables root).mid (va >>> 21)).isSome)
    (halign : va % pgsize = 0) (hV : isV (s.pte root va) = false)
    (hw : isV w = true) (hkept : SwapsKept (.map root va) s) :
    SwapTracked g' (n ++ [(.map root va, s)]) s' := by
  have hentry : ∀ {i p a}, SwapEntry s' i p a ↔ SwapEntry s i p a := SwapEntry.congr hswaps
  -- an entry is for another page than the one mapped
  have hother : ∀ {i p r v}, SwapEntry s i p (v * pgsize) →
      Attached g s p r → r ≠ root ∨ v ≠ va >>> 12 := by
    intro i p r v hi hp
    by_contra hcon
    rw [not_or, not_not, not_not] at hcon
    obtain ⟨rfl, rfl⟩ := hcon
    rw [mul_vpn halign] at hi
    exact hkept i p hi hp.2
  refine ⟨hown, ?_, ?_, ?_, ?_, ?_, ?_, ?_⟩
  · rw [hswaps]
    exact h.bound
  · intro i hi
    rw [hswaps] at hi
    obtain ⟨p, a, hi⟩ := h.owner i hi
    exact ⟨p, a, hentry.mpr hi⟩
  · intro p a hl
    rcases hl with ⟨i, hi⟩ | hp
    · rw [hentry] at hi
      obtain ⟨r, v, rfl, ho⟩ := h.out p a (.inl ⟨i, hi⟩)
      have hne := hother hi ho.attached
      refine ⟨r, v, rfl, (hst.attached p r).mpr ho.attached, ?_, ho.history.snoc ?_⟩
      · rw [hst.other hne]
        exact ho.pte
      · rintro ⟨rfl, hva⟩
        refine hne.elim (fun hr => hr rfl) fun hv => hv ?_
        rw [hva, vpn_mul]
    · rw [hpend'] at hp
      cases hp
  · intro r v hsw
    have hne : r ≠ root ∨ v ≠ va >>> 12 := by
      by_contra! hcon
      rw [hcon.1, hcon.2, hst.self hmid] at hsw
      exact not_isSwapped_valid hw hsw
    rw [hst.other hne] at hsw
    obtain ⟨p, hp, ⟨i, hi⟩ | hpe⟩ := h.listed r v hsw
    · exact ⟨p, (hst.attached p r).mpr hp, .inl ⟨i, hentry.mpr hi⟩⟩
    · -- the page being swapped in is the one just mapped
      obtain ⟨rfl, hp'⟩ := hpend p _ hpe
      rw [vpn_mul] at hne
      exact (hne.elim (fun hr => hr (hp.unique hp')) fun hv => hv rfl).elim
  · exact fun i j p a hi hj => h.unique i j p a (hentry.mp hi) (hentry.mp hj)
  · grind
  · refine h.trace.snoc fun hne => ?_
    have hsw : IsSwapped ((s.pagetables root).leaf (va >>> 12)) := ⟨hne, hV⟩
    obtain ⟨p, hp, hl⟩ := h.listed root _ hsw
    have hout := (h.outSince hp hl).history
    rw [mul_vpn halign] at hout
    exact ⟨p, hp.2, hout⟩

end

-- ======== swap moves

/-- A page that is at a place stays at one when its PTE is invalidated. -/
theorem swappedPte_isSwapped (slot : Nat) (hpa : pte2pa w ≠ 0) : IsSwapped (swappedPte w slot) := by
  refine ⟨fun hzero => hpa ?_, isV_swappedPte w slot⟩
  unfold swappedPte at hzero
  rw [← pte2pa_clearFlag w (show pteV < 1024 by decide), (Nat.or_eq_zero_iff.mp hzero).1]
  rfl

/-- The new entry and the old ones. -/
theorem swapEntry_recorded {idx a : Nat} {block : Int} {q : ProcId}
    (howner : (s.frameTable idx).owner = some p) : SwapEntry (s.recorded idx slot block) i q a
      ↔ (i = slot ∧ q = p ∧ a = (s.frameTable idx).vaddr) ∨ (i ≠ slot ∧ SwapEntry s i q a) := by
  rw [Kernel.recorded, swapEntry_setSwap]
  refine or_congr_left (and_congr_right fun _ => ?_)
  simp only [Kernel.swapEntryFor, howner, Option.some.injEq, true_and]
  exact and_congr eq_comm eq_comm

/-- A page that is out is not the one of a valid leaf. -/
theorem OutSince.ne {r : Nat} (h : OutSince g n s p r v) (hV : isV (s.pte root va) = true) :
    r ≠ root ∨ v ≠ va >>> 12 := by
  by_contra! hcon
  obtain ⟨rfl, rfl⟩ := hcon
  exact not_isSwapped_valid hV h.pte

/-- Frame `idx`, the mapped page of process `p`, can go out to `slot`. -/
structure GoesOut (g : Ghost) (s : Kernel) (p : ProcId) (root idx slot : Nat) : Prop where
  pending : g.pending = none
  inUse : (s.frameTable idx).inUse = true
  owner : (s.frameTable idx).owner = some p
  attached : Attached g s p root
  mid : ((s.pagetables root).mid ((s.frameTable idx).vaddr >>> 21)).isSome
  valid : isV (s.pte root (s.frameTable idx).vaddr) = true
  lt : slot < maxSwapDiskEntries
  free : (s.swapDiskTable slot).inUse = false

section

variable {idx : Nat} {block : Int}

theorem GoesOut.swapEntry_ne {q : ProcId} {a : Nat} (ho : GoesOut g s p root idx slot)
    (h : SwapEntry s i q a) : i ≠ slot := by
  rintro rfl
  cases ho.free.symm.trans h.1

/-- The page was mapped, so there was no entry for it. -/
theorem GoesOut.unlisted (ho : GoesOut g s p root idx slot) (h : SwapTracked g n s) :
    ¬ SwapEntry s i p (s.frameTable idx).vaddr := by
  intro hi
  rw [← mul_vpn (h.own.frames idx ho.inUse).2.1] at hi
  exact not_isSwapped_valid ho.valid (h.outSince ho.attached (.inl ⟨i, hi⟩)).pte

theorem GoesOut.isSwapped (ho : GoesOut g s p root idx slot) (h : SwapTracked g n s) :
    IsSwapped (swappedPte (s.pte root (s.frameTable idx).vaddr) slot) := by
  refine swappedPte_isSwapped slot fun hzero => ?_
  have hleaf : Holds g s (.leaf root ((s.frameTable idx).vaddr >>> 12)) 0 :=
    ⟨vpn_lt (h.own.frames idx ho.inUse).1, ho.valid, hzero⟩
  exact absurd (h.own.ram _ _ hleaf).1.2.1 (by decide)

theorem GoesOut.unique (ho : GoesOut g s p root idx slot) (h : SwapTracked g n s) {j a : Nat}
    {q : ProcId} (hi : SwapEntry (s.recorded idx slot block) i q a)
    (hj : SwapEntry (s.recorded idx slot block) j q a) : i = j := by
  rcases (swapEntry_recorded ho.owner).mp hi with ⟨rfl, rfl, rfl⟩ | ⟨-, hi⟩ <;>
    rcases (swapEntry_recorded ho.owner).mp hj with ⟨hjs, hq, ha⟩ | ⟨-, hj⟩
  · exact hjs.symm
  · exact absurd hj (ho.unlisted h)
  · rw [hq, ha] at hi
    exact absurd hi (ho.unlisted h)
  · exact h.unique i j q a hi hj

theorem SwapTracked.swapOut {f : Proc → Proc} (h : SwapTracked g n s)
    (hown : Own g' (((s.recorded idx slot block).invalidated root idx slot).updProc p f))
    (hdying : g'.dying = g.dying) (hpend : g'.pending = none)
    (ho : GoesOut g s p root idx slot) (hf : Counts f (-1)) :
    SwapTracked g' (n ++ [(.swapOut idx, s.recorded idx slot block)])
      (((s.recorded idx slot block).invalidated root idx slot).updProc p f) := by
  have hva := mul_vpn (h.own.frames idx ho.inUse).2.1
  have hst : LeafStored g s g' (((s.recorded idx slot block).invalidated root idx slot).updProc p f)
      root (s.frameTable idx).vaddr _ := .counted hf hdying rfl rfl
  have hentry {i q a} : SwapEntry (s.recorded idx slot block) i q a ↔ _ :=
    swapEntry_recorded ho.owner
  have hold : ∀ {i}, i ≠ slot → (s.recorded idx slot block).swapDiskTable i = s.swapDiskTable i :=
    fun hi => update_of_ne hi ..
  refine ⟨hown, ?_, ?_, ?_, ?_, fun i j q a => ho.unique h, ?_, h.trace.snoc trivial⟩
  · intro i hi
    by_cases heq : i = slot
    · exact heq ▸ ho.lt
    · exact h.bound i (hold heq ▸ hi)
  · intro i hi
    by_cases heq : i = slot
    · exact ⟨p, _, hentry.mpr (.inl ⟨heq, rfl, rfl⟩)⟩
    · obtain ⟨q, a, hq⟩ := h.owner i (hold heq ▸ hi)
      exact ⟨q, a, hentry.mpr (.inr ⟨heq, hq⟩)⟩
  · rintro q a (⟨i, hi⟩ | hq)
    · rcases hentry.mp hi with ⟨-, rfl, rfl⟩ | ⟨-, hi⟩
      · refine ⟨root, _, hva.symm, (hst.attached ..).mpr ho.attached, ?_, ?_⟩
        · rw [hst.self ho.mid]
          exact ho.isSwapped h
        · rw [hva]
          exact ⟨n, idx, _, [], rfl, ho.owner, rfl, ho.attached.2, List.forall_mem_nil _⟩
      · obtain ⟨r, v, rfl, hout⟩ := h.out q a (.inl ⟨i, hi⟩)
        refine ⟨r, v, rfl, (hst.attached q r).mpr hout.attached, ?_, hout.history.snoc id⟩
        rw [hst.other (hout.ne ho.valid)]
        exact hout.pte
    · cases hpend.symm.trans hq
  · intro r v hsw
    by_cases hne : r ≠ root ∨ v ≠ (s.frameTable idx).vaddr >>> 12
    · rw [hst.other hne] at hsw
      obtain ⟨q, hq, ⟨i, hi⟩ | hpe⟩ := h.listed r v hsw
      · exact ⟨q, (hst.attached q r).mpr hq, .inl ⟨i, hentry.mpr (.inr ⟨ho.swapEntry_ne hi, hi⟩)⟩⟩
      · cases ho.pending.symm.trans hpe
    · rw [not_or, not_not, not_not] at hne
      obtain ⟨rfl, rfl⟩ := hne
      exact ⟨p, (hst.attached ..).mpr ho.attached, .inl ⟨slot, hentry.mpr (.inl ⟨rfl, rfl, hva⟩)⟩⟩
  · rw [hpend]
    exact nofun

end

theorem SwapTracked.unswap (h : SwapTracked g n s)
    (hown : Own { g with pending := some (p, va) } (s.setSwap slot { s.swapDiskTable slot with
        inUse := false, owner := none, vaddr := 0, logicalBlock := -1 }))
    (hpend : g.pending = none) (hslot : SwapEntry s slot p va) :
    SwapTracked { g with pending := some (p, va) } n (s.setSwap slot { s.swapDiskTable slot with
        inUse := false, owner := none, vaddr := 0, logicalBlock := -1 }) := by
  generalize hs : s.setSwap slot { s.swapDiskTable slot with
    inUse := false, owner := none, vaddr := 0, logicalBlock := -1 } = s'
    at hown ⊢
  have hentry : ∀ {i q a}, SwapEntry s' i q a
      ↔ i ≠ slot ∧ SwapEntry s i q a := by grind [swapEntry_setSwap]
  have hswaps : ∀ i, (s'.swapDiskTable i).inUse = true →
      i ≠ slot ∧ (s.swapDiskTable i).inUse = true := by
    intro i hi
    rw [← hs] at hi
    by_cases heq : i = slot
    · rw [heq] at hi
      exact absurd ((congrArg SwapDiskEntry.inUse (update_self ..)).symm.trans hi) nofun
    · refine ⟨heq, ?_⟩
      rw [← hi]
      exact (congrArg SwapDiskEntry.inUse (update_of_ne heq ..)).symm
  have hlist : ∀ {q a}, Listed { g with pending := some (p, va) } s' q a ↔ Listed g s q a := by
    intro q a
    constructor
    · rintro (⟨i, hi⟩ | hq)
      · exact .inl ⟨i, (hentry.mp hi).2⟩
      · cases hq
        exact .inl ⟨slot, hslot⟩
    · rintro (⟨i, hi⟩ | hq)
      · by_cases heq : i = slot
        · subst heq
          obtain rfl := Option.some.inj (hi.2.1.symm.trans hslot.2.1)
          obtain rfl := hi.2.2.symm.trans hslot.2.2
          exact .inr rfl
        · exact .inl ⟨i, hentry.mpr ⟨heq, hi⟩⟩
      · rw [hpend] at hq
        cases hq
  have hout : ∀ {q r v}, OutSince g n s q r v →
      OutSince { g with pending := some (p, va) } n s' q r v := by
    rw [← hs]
    exact fun ho => ⟨ho.attached, ho.pte, ho.history⟩
  refine ⟨hown, ?_, ?_, ?_, ?_, ?_, ?_, h.trace⟩
  · exact fun i hi => h.bound i (hswaps i hi).2
  · grind [h.owner]
  · grind [h.out]
  · intro r v hsw
    have hsw' : IsSwapped ((s.pagetables r).leaf v) := by
      rw [← hs] at hsw
      exact hsw
    obtain ⟨q, hq, hl⟩ := h.listed r v hsw'
    exact ⟨q, (hout (h.outSince hq hl)).attached, hlist.mpr hl⟩
  · exact fun i j q a hi hj => h.unique i j q a (hentry.mp hi).2 (hentry.mp hj).2
  · grind [h.unique]

-- ======== all moves

/-- A process without entries has no listed pages. -/
theorem Listed.ne {q : ProcId} (hl : Listed g s q va) (hpend : g.pending = none)
    (hno : ∀ i a, ¬ SwapEntry s i p a) : q ≠ p := by
  rintro rfl
  rcases hl with ⟨i, hi⟩ | hpe
  · exact hno i va hi
  · rw [hpend] at hpe
    cases hpe

/-- A leaf of a spare table holds nothing or a page. -/
theorem SwapTracked.spare_zero (h : SwapTracked g n s)
    (hspare : g.spare = some (root, x)) (hV : isV (s.pte root va) = false) : s.pte root va = 0 := by
  by_contra hne
  exact h.spare_none hspare ⟨hne, hV⟩

/-- Every move that keeps the swapped-out pages in their address spaces
keeps the invariant. -/
theorem SwapTracked.move (h : SwapTracked g n s) (m : Move g s t g' s')
    (hkept : ∀ x ∈ t, SwapsKept x.1 x.2) : SwapTracked g' (n ++ t) s' := by
  have hown := h.own.move m
  cases m with
  | aside ha =>
    exact h.quiet hown ha.swaps rfl (fun _ _ => by rw [ha.tables])
      fun q r hq => ⟨hq.1, (ha.pagetable q).trans hq.2⟩
  | take _ | give _ | settle _ _ _ | unsettle _ =>
    exact h.quiet hown rfl rfl (fun _ _ => rfl) fun _ _ => id
  | linkDir _ _ _ => exact h.quiet hown rfl rfl (Kernel.setTable_leaf fun _ => rfl) fun _ _ => id
  | linkMid _ _ _ =>
    exact h.quiet hown rfl rfl (Kernel.setTable_leaf fun _ => by rw [linkMid_leaf]; rfl)
      fun _ _ => id
  | map hhand hpend _ _ hmid _ halign hV _ =>
    exact h.mapped hown rfl hpend (fun p a hpe => by cases hpend.symm.trans hpe)
      ⟨fun _ _ => Iff.rfl, rfl⟩ hmid halign hV (isV_or_pteV _) (hkept _ (List.mem_singleton_self _))
  | @bring p root va pa perm rest f hhand hpend hp _ hmid _ halign hV _ hf =>
    obtain ⟨frames, hs⟩ := Kernel.registered_shape
      (s.setLeaf root va (pa2pte pa ||| perm ||| pteV)) p va pa
    refine h.mapped hown (by rw [Kernel.brought, hs]; rfl) rfl (fun q a hpe => ?_)
      (.brought hf rfl) hmid halign hV (isV_or_pteV _) (hkept _ (List.mem_singleton_self _))
    rcases hpend with hnone | hsome
    · cases hnone.symm.trans hpe
    · cases hsome.symm.trans hpe
      exact ⟨rfl, hp⟩
  | @unmap root va _ hmid _ _ hV =>
    refine h.store hown rfl rfl rfl rfl rfl (not_isSwapped_valid hV)
      not_isSwapped_zero (fun _ _ _ _ hs => hs.snoc id) (h.trace.snoc trivial)
  | touch _ hV =>
    rw [List.append_nil]
    refine h.store hown rfl rfl rfl rfl rfl (not_isSwapped_valid hV)
      (not_isSwapped_valid ?_) (fun _ _ _ _ hs => hs) h.trace
    rw [isV_or_pteA]
    exact hV
  | @guard root va x hspare _ =>
    rw [List.append_nil]
    refine h.store hown rfl rfl rfl rfl rfl (h.spare_none hspare)
      (fun hsw => ?_) (fun _ _ _ _ hs => hs) h.trace
    have hV := hsw.2
    rw [isV_clearFlag_pteU] at hV
    rw [h.spare_zero hspare hV] at hsw
    exact hsw.1 rfl
  | @create root rest hhand _ =>
    rw [List.append_nil]
    refine h.replace hown rfl rfl rfl rfl rfl (fun v => h.hand_none ?_) fun _ => rfl
    rw [hhand]
    exact List.mem_cons_self ..
  | @mapFixed root va pa perm hspare hva hV =>
    refine h.store hown rfl rfl rfl rfl rfl (h.spare_none hspare)
      (not_isSwapped_valid (isV_or_pteV _)) (fun q r v hq hs => ?_) ?_
    · refine hs.snoc fun hsup => ?_
      exact (h.own.attached q r hq).2.2 _ (hsup.1 ▸ hspare)
    · exact h.trace.snoc fun hne => absurd (h.spare_zero hspare hV) hne
  | unmapFixed hspare _ _ =>
    exact h.store hown rfl rfl rfl rfl rfl (h.spare_none hspare)
      not_isSwapped_zero (fun _ _ _ _ hs => hs.snoc id) (h.trace.snoc trivial)
  | destroy hspare =>
    rw [List.append_nil]
    unfold Kernel.freedTable at hown ⊢
    exact h.replace hown rfl rfl rfl rfl rfl (fun v => h.spare_none hspare) fun _ => rfl
  | setTrapframe _ _ _ _ | setSz _ _ =>
    exact h.quiet hown rfl rfl (fun _ _ => rfl) fun q r hq =>
      ⟨hq.1, (s.updProc_field Proc.pagetable _ rfl q).trans hq.2⟩
  | @freeTrapframe p pa _ _ _ =>
    exact h.quiet hown rfl rfl (fun _ _ => rfl) fun q r hq =>
      ⟨hq.1, ((s.push pa).updProc_field Proc.pagetable p rfl q).trans hq.2⟩
  | @attach p root _ _ hpt _ =>
    refine h.quiet hown rfl rfl (fun _ _ => rfl) fun q r hq => ?_
    have hqp : q ≠ p := by
      rintro rfl
      exact absurd (hpt.symm.trans hq.2) nofun
    refine ⟨hq.1, ?_⟩
    rw [s.updProc_of_ne _ hqp]
    exact hq.2
  | @commit p root old sz hpend hspare hold _ =>
    have hno := hkept _ (List.mem_singleton_self _)
    refine h.leaves hown rfl rfl (fun _ _ => rfl) (fun q r va hl hq => ⟨hq.1, ?_⟩)
      (fun q r va hl hs => hs.snoc (hl.ne hpend hno).symm) (h.trace.snoc trivial)
    rw [s.updProc_of_ne _ (hl.ne hpend hno)]
    exact hq.2
  | @reap p hpend _ hdying =>
    have hno := hkept _ (List.mem_singleton_self _)
    refine h.leaves hown rfl rfl (fun _ _ => rfl) (fun q r va hl hq => ⟨fun heq => ?_, hq.2⟩)
      (fun q r va hl hs => hs.snoc (hl.ne hpend hno).symm) (h.trace.snoc trivial)
    exact hl.ne hpend hno (Option.some.inj heq).symm
  | @clear p hdying _ _ =>
    refine h.quiet hown rfl rfl (fun _ _ => rfl) fun q r hq => ?_
    have hqp : q ≠ p := fun heq => hq.1 (by rw [heq]; exact hdying)
    refine ⟨nofun, ?_⟩
    rw [s.updProc_of_ne _ hqp]
    exact hq.2
  | @shrink p lo hpend =>
    have hlow := hkept _ (List.mem_singleton_self _)
    refine h.leaves hown rfl rfl (fun _ _ => rfl) (fun _ _ _ _ hq => hq)
      (fun q r va hl hs => hs.snoc ?_) (h.trace.snoc trivial)
    rintro ⟨rfl, hle⟩
    rcases hl with ⟨i, hi⟩ | hpe
    · exact absurd (hlow i va hi) (Nat.not_lt.mpr hle)
    · rw [hpend] at hpe
      cases hpe
  | swapOut hpend huse howner hp hmid hV _ hlt hfree hf =>
    exact h.swapOut hown rfl hpend ⟨hpend, huse, howner, hp, hmid, hV, hlt, hfree⟩ hf
  | unswap hpend huse howner hva =>
    rw [List.append_nil]
    exact h.unswap hown hpend ⟨huse, howner, hva⟩
  | abandon hpend hp hzero =>
    obtain ⟨root, v, rfl, ho⟩ := h.out _ _ (.inr hpend)
    obtain rfl := ho.attached.unique hp
    unfold Kernel.pte at hzero
    rw [vpn_mul] at hzero
    exact absurd hzero ho.pte.1

end GemOS
