/-
The frame table and the count of resident pages, over whole runs.

`vmfault` and `swap_page_in` register every frame they map and count the
page for its process; an eviction marks the entry swapped and counts the
page off. Nothing else touches either, and yet pages also leave an
address space when it shrinks, when `kexec` replaces it and when it is
dismantled. As long as no page with a registered frame leaves that way
(`FramesKept`), the table tells the truth and the counts are right; the
first page that does leaves a stale entry and a wrong count behind.

# The pages a process brought in

A page was brought in when `mappages` last mapped it below the size of
the process that has the table: `uvmalloc` maps at or above the size,
`uvmcopy` into a process that has none yet, and `kexec` in a table that
is nobody's. (`Move.map` and `Move.bring` carry the two sides of this.)

# The invariant

`Tracked` ties the three together: every registered frame is a page
brought in and still mapped where its entry says, every such page has a
registered frame, and each process counts its own. That every move keeps
it is in the next module; here is what the moves that gain and lose no
resident page have in common.
-/
import GemOS.Proofs.KeptSystem

namespace GemOS

open Prog

-- ======== properties

/-- An entry that stands for a page in memory: `in_use`, not
`swapped`. -/
def FrameEntry.Holding (e : FrameEntry) : Prop :=
  e.inUse = true ∧ e.swapped = false

/-- Every such entry names a live process whose table maps the recorded
address, validly, to that frame. -/
def FrameTableSound (s : Kernel) : Prop :=
  ∀ i, (s.frameTable i).Holding → ∃ p root,
    (s.frameTable i).owner = some p ∧ (s.proc p).state ≠ .unused ∧ (s.proc p).pagetable = some root
      ∧ isV (s.pte root (s.frameTable i).vaddr) = true
      ∧ pte2pa (s.pte root (s.frameTable i).vaddr) = s.frameIndexToPa i

def Mark.mapsAt (root va : Nat) : Mark → Bool
  | .map r a => r == root && a == va
  | _ => false

/-- The state in which `va` was last mapped in the table at `root`. -/
def lastMapping (n : Notes Mark Kernel) (root va : Nat) : Option Kernel :=
  (n.filter fun x => x.1.mapsAt root va).getLast?.map Prod.snd

/-- The page was last mapped by `vmfault` or `swap_page_in` (module
comment). -/
def BroughtIn (n : Notes Mark Kernel) (root va : Nat) : Prop :=
  ∃ s, lastMapping n root va = some s ∧ ∃ p, (s.proc p).pagetable = some root ∧ va < (s.proc p).sz

/-- Page number `v` of a table was brought in and is still mapped. -/
def Resident (n : Notes Mark Kernel) (s : Kernel) (root v : Nat) : Prop :=
  v < userPages ∧ isV ((s.pagetables root).leaf v) = true ∧ BroughtIn n root (v * pgsize)

open Classical in
/-- The page numbers of the resident pages of a table. -/
noncomputable def residentSet (n : Notes Mark Kernel) (s : Kernel) (root : Nat) : Finset Nat :=
  (Finset.range userPages).filter (Resident n s root)

/-- The resident pages of a process. -/
noncomputable def residentOf (n : Notes Mark Kernel) (s : Kernel) (p : ProcId) : Finset Nat :=
  match (s.proc p).pagetable with
  | none => ∅
  | some root => residentSet n s root

/-- Every live process counts its resident pages; so no count is
negative. -/
def ResidentCounted (n : Notes Mark Kernel) (s : Kernel) : Prop :=
  ∀ p, (s.proc p).state ≠ .unused → (s.proc p).residentPages = (residentOf n s p).card
      ∧ 0 ≤ (s.proc p).residentPages

/-- No frame is swapped out twice in a row, and no page with a registered
frame leaves its address space except by being swapped out. -/
def FramesKept : Mark → Kernel → Prop
  | .swapOut idx, s => (s.frameTable idx).swapped = false
  | .unmap root va, s => ∀ i, (s.frameTable i).Holding → s.frameIndexToPa i ≠ pte2pa (s.pte root va)
  | .commit p, s | .reap p, s => ∀ i, (s.frameTable i).Holding → (s.frameTable i).owner ≠ some p
  | .map .., _ | .shrink .., _ => True

-- ======== history

variable {n : Notes Mark Kernel} {s : Kernel} {g : Ghost}

theorem lastMapping_snoc (n : Notes Mark Kernel) (x : Mark × Kernel) (root va : Nat) :
    lastMapping (n ++ [x]) root va
      = if x.1.mapsAt root va then some x.2 else lastMapping n root va := by
  unfold lastMapping
  rw [List.filter_append]
  by_cases hx : x.1.mapsAt root va = true
  · simp [hx]
  · simp [hx]

variable {root va r v w : Nat} {g' : Ghost} {n' : Notes Mark Kernel} {s' : Kernel}

/-- Only a mapping of the page itself makes a difference. -/
theorem broughtIn_snoc {x : Mark × Kernel} (hx : x.1.mapsAt root va = false) :
    BroughtIn (n ++ [x]) root va ↔ BroughtIn n root va := by
  unfold BroughtIn
  rw [lastMapping_snoc, hx]
  exact Iff.rfl

theorem broughtIn_map : BroughtIn (n ++ [(.map root va, s)]) root va
      ↔ ∃ p, (s.proc p).pagetable = some root ∧ va < (s.proc p).sz := by
  unfold BroughtIn
  rw [lastMapping_snoc, show Mark.mapsAt root va (.map root va) = true by
    simp [Mark.mapsAt]]
  simp

theorem mapsAt_ne (hne : r ≠ root ∨ v ≠ va >>> 12) :
    Mark.mapsAt r (v * pgsize) (.map root va) = false := by
  simp only [Mark.mapsAt, Bool.and_eq_false_iff, beq_eq_false_iff_ne]
  rcases hne with h | h
  · exact .inl (Ne.symm h)
  · grind [Nat.shiftRight_eq_div_pow]

theorem mem_residentSet : v ∈ residentSet n s root ↔ Resident n s root v := by
  simp only [residentSet, Finset.mem_filter, Finset.mem_range]
  exact ⟨fun h => h.2, fun h => ⟨h.1, h⟩⟩

-- ======== invariant

/-- The invariant (module comment). -/
structure Tracked (g : Ghost) (n : Notes Mark Kernel) (s : Kernel) : Prop where
  own : Own g s
  sound : ∀ i, (s.frameTable i).Holding → ∃ p root v,
    (s.frameTable i).owner = some p ∧ (s.frameTable i).vaddr = v * pgsize
      ∧ Attached g s p root ∧ Resident n s root v
      ∧ pte2pa ((s.pagetables root).leaf v) = s.frameIndexToPa i
  known : ∀ root v, Resident n s root v → ∃ i p, (s.frameTable i).Holding
    ∧ (s.frameTable i).owner = some p ∧ (s.frameTable i).vaddr = v * pgsize
    ∧ Attached g s p root
  counted : ∀ p root, Attached g s p root → (s.proc p).residentPages = (residentSet n s root).card

section

variable (h : Tracked g n s)

include h

/-- The registered frame of a resident page. -/
theorem Tracked.frameOf (hr : Resident n s root v) :
    ∃ i p, (s.frameTable i).Holding ∧ (s.frameTable i).owner = some p ∧ Attached g s p root
      ∧ s.frameIndexToPa i = pte2pa ((s.pagetables root).leaf v) := by
  obtain ⟨i, p, hi, hp, hva, hatt⟩ := h.known root v hr
  obtain ⟨p', root', v', hp', hva', hatt', -, hpa⟩ := h.sound i hi
  obtain rfl := Option.some.inj (hp.symm.trans hp')
  obtain rfl := mul_pgsize_inj (hva.symm.trans hva')
  obtain rfl := hatt.unique hatt'
  exact ⟨i, p, hi, hp, hatt, hpa.symm⟩

/-- A table that is no process's has no resident pages. -/
theorem Tracked.spare_empty {x : Option ProcId}
    (hspare : g.spare = some (root, x)) : ¬ Resident n s root v := by
  intro hr
  obtain ⟨_, p, -, -, hatt, -⟩ := h.frameOf hr
  exact (h.own.attached p root hatt).2.2 x hspare

theorem Tracked.dead_empty (hdead : (s.pagetables root).live = false) : ¬ Resident n s root v := by
  rintro ⟨-, hV, -⟩
  rw [h.own.dead root hdead] at hV
  exact absurd (isV_zero.symm.trans hV) nofun

/-- What a move that gains and loses no resident page and no frame has to
keep. -/
theorem Tracked.transfer (hown : Own g' s') (hkend : s'.kend = s.kend)
    (hframes : ∀ i, (s'.frameTable i).core = (s.frameTable i).core)
    (hres : ∀ root v, Resident n' s' root v ↔ Resident n s root v)
    (hpa : ∀ root v, Resident n s root v →
      pte2pa ((s'.pagetables root).leaf v) = pte2pa ((s.pagetables root).leaf v))
    (hatt : ∀ p root v, Resident n s root v → Attached g s p root → Attached g' s' p root)
    (hcount : ∀ p root, Attached g' s' p root →
      (s'.proc p).residentPages = (residentSet n s root).card) :
    Tracked g' n' s' := by
  have hset : ∀ root, residentSet n' s' root = residentSet n s root := by
    grind [mem_residentSet]
  have hhold : ∀ i, (s'.frameTable i).Holding ↔ (s.frameTable i).Holding := by
    grind [FrameEntry.core_eq, FrameEntry.Holding]
  refine ⟨hown, ?_, ?_, fun p root hp => by rw [hset, hcount p root hp]⟩
  · intro i hi
    obtain ⟨p, root, v, hp, hva, hap, hr, hleaf⟩ := h.sound i ((hhold i).mp hi)
    obtain ⟨-, hown', hva', -⟩ := FrameEntry.core_eq (hframes i)
    refine ⟨p, root, v, hown'.trans hp, hva'.trans hva, hatt p root v hr hap,
      (hres root v).mpr hr, ?_⟩
    rw [hpa root v hr, hleaf]
    unfold Kernel.frameIndexToPa Kernel.frameBase
    rw [hkend]
  · intro root v hr
    obtain ⟨i, p, hi, hp, hva, hap⟩ := h.known root v ((hres root v).mp hr)
    obtain ⟨-, hown', hva', -⟩ := FrameEntry.core_eq (hframes i)
    exact ⟨i, p, (hhold i).mpr hi, hown'.trans hp, hva'.trans hva,
      hatt p root v ((hres root v).mp hr) hap⟩

-- ======== simple moves

/-- Moves that change tables, and neither processes nor frames. -/
theorem Tracked.tables (hown : Own g' s') (hdying : g'.dying = g.dying) (hkend : s'.kend = s.kend)
    (hproc : s'.proc = s.proc) (hframes : s'.frameTable = s.frameTable)
    (hres : ∀ root v, Resident n' s' root v ↔ Resident n s root v)
    (hpa : ∀ root v, Resident n s root v → pte2pa ((s'.pagetables root).leaf v)
        = pte2pa ((s.pagetables root).leaf v)) : Tracked g' n' s' := by
  have hatt : ∀ p root, Attached g' s' p root ↔ Attached g s p root := by
    intro p root
    unfold Attached
    rw [hdying, hproc]
  refine h.transfer hown hkend (fun i => by rw [hframes]) hres hpa
    (fun p root _ _ hp => (hatt p root).mpr hp) fun p root hp => ?_
  rw [hproc]
  exact h.counted p root ((hatt p root).mp hp)

/-- Moves that keep the tables: processes change, but not those with
resident pages. -/
theorem Tracked.procs (hown : Own g' s')
    (hkend : s'.kend = s.kend) (htables : s'.pagetables = s.pagetables)
    (hframes : ∀ i, (s'.frameTable i).core = (s.frameTable i).core)
    (hnotes : ∀ root va, BroughtIn n' root va ↔ BroughtIn n root va)
    (hatt : ∀ p root v, Resident n s root v → Attached g s p root → Attached g' s' p root)
    (hcount : ∀ p root, Attached g' s' p root →
      (s'.proc p).residentPages = (residentSet n s root).card) :
    Tracked g' n' s' := by
  refine h.transfer hown hkend hframes (fun root v => ?_) (fun root v _ => ?_) hatt hcount
  · unfold Resident
    rw [htables, hnotes]
  · rw [htables]

end

/-- Residency where the leaf and the history of a page are what they
were. -/
theorem resident_congr (hleaf : (s'.pagetables root).leaf v = (s.pagetables root).leaf v)
    (hnotes : BroughtIn n' root (v * pgsize) ↔ BroughtIn n root (v * pgsize)) :
    Resident n' s' root v ↔ Resident n s root v := by
  unfold Resident
  rw [hleaf, hnotes]

/-- A leaf whose page is resident neither before nor after a store to
it. -/
theorem resident_setLeaf (hnotes : r ≠ root ∨ v ≠ va >>> 12 →
      (BroughtIn n' r (v * pgsize) ↔ BroughtIn n r (v * pgsize)))
    (hbefore : ¬ Resident n s root (va >>> 12))
    (hafter : ¬ Resident n' (s.setLeaf root va w) root (va >>> 12)) :
    Resident n' (s.setLeaf root va w) r v ↔ Resident n s r v := by
  by_cases hat : r = root ∧ v = va >>> 12
  · obtain ⟨rfl, rfl⟩ := hat
    exact iff_of_false hafter hbefore
  · grind [resident_congr, Kernel.setLeaf_leaf_of_ne]

/-- A resident page's leaf is not one that a store to another page
reaches. -/
theorem leaf_of_resident (hbefore : ¬ Resident n s root (va >>> 12)) (hr : Resident n s r v) :
    ((s.setLeaf root va w).pagetables r).leaf v = (s.pagetables r).leaf v := by
  refine Kernel.setLeaf_leaf_of_ne ?_
  by_cases hroot : r = root
  · grind
  · exact .inl hroot

theorem vpn_fixed (hlo : trapframeVa ≤ va) : userPages ≤ va >>> 12 := by
  rw [Nat.shiftRight_eq_div_pow]
  simp only [trapframeVa, trampolineVa, maxva, pgsize, userPages] at *
  omega

theorem not_resident_fixed (hlo : trapframeVa ≤ va) : ¬ Resident n s root (va >>> 12) := fun h =>
  absurd h.1 (Nat.not_lt.mpr (vpn_fixed hlo))

theorem not_resident_invalid (hV : isV (s.pte root va) = false) : ¬ Resident n s root (va >>> 12) :=
  fun h => absurd (hV.symm.trans h.2.1) nofun

/-- A user page mapped at or above the size is not brought in. -/
theorem not_resident_above (halign : va % pgsize = 0)
    (habove : ∀ p, (s.proc p).pagetable = some root → (s.proc p).sz ≤ va) :
    ¬ Resident (n ++ [(.map root va, s)]) s' root (va >>> 12) := by
  rintro ⟨-, -, hb⟩
  rw [mul_vpn halign, broughtIn_map] at hb
  obtain ⟨p, hp, hlt⟩ := hb
  exact absurd hlt (Nat.not_lt.mpr (habove p hp))

/-- A change of a leaf that stays valid and keeps its page. -/
theorem Tracked.rewrite (h : Tracked g n s) (hown : Own g (s.setLeaf root va w))
    (hV : isV w = isV (s.pte root va)) (hpa : pte2pa w = pte2pa (s.pte root va)) :
    Tracked g n (s.setLeaf root va w) := by
  have hleaf : ∀ r v, isV (((s.setLeaf root va w).pagetables r).leaf v)
        = isV ((s.pagetables r).leaf v)
      ∧ pte2pa (((s.setLeaf root va w).pagetables r).leaf v)
        = pte2pa ((s.pagetables r).leaf v) := by
    intro r v
    rcases s.setLeaf_leaf_cases root va w r v with heq | ⟨rfl, rfl, heq⟩
    · rw [heq]
      exact ⟨rfl, rfl⟩
    · rw [heq]
      exact ⟨hV, hpa⟩
  refine h.tables hown rfl rfl rfl rfl (fun r v => ?_) fun r v _ => (hleaf r v).2
  unfold Resident
  rw [(hleaf r v).1]

end GemOS
