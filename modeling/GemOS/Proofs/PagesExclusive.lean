/-
Every page has one place.

No page is on the free list and mapped, or mapped twice, after any run in
which the frame table is right about every frame that is swapped out: the
allocator and `evict_page` then agree on whose page it is. An entry that
has gone stale is enough to break it, since `evict_page` hands the frame
it names to the next page without asking the allocator.
-/
import GemOS.Proofs.EvictRun

namespace GemOS

open Prog

variable {n : Notes Mark Kernel} {s : Kernel}

/-- No page is at once free and mapped in the table of a process, or
mapped as user memory of two processes or at two of their pages. -/
def PagesExclusive (s : Kernel) : Prop :=
  (∀ p root v, (s.proc p).pagetable = some root → isV ((s.pagetables root).leaf v) = true →
    pte2pa ((s.pagetables root).leaf v) ∉ s.freelist)
  ∧ ∀ p q r r' v w, (s.proc p).pagetable = some r →
    (s.proc q).pagetable = some r' → v < userPages → w < userPages →
    isV ((s.pagetables r).leaf v) = true →
    isV ((s.pagetables r').leaf w) = true →
    pte2pa ((s.pagetables r).leaf v) = pte2pa ((s.pagetables r').leaf w) →
    p = q ∧ v = w

/-- A page that a table maps is not free. -/
theorem Own.mapped_not_free {p : ProcId} {root v : Nat} (h : Own .empty s)
    (hp : (s.proc p).pagetable = some root) (hV : isV ((s.pagetables root).leaf v) = true) :
    pte2pa ((s.pagetables root).leaf v) ∉ s.freelist := by
  intro hfree
  have hfree' : Holds .empty s .free _ := hfree
  obtain ⟨-, hfixed, -⟩ := h.attached p root ⟨nofun, hp⟩
  rcases Nat.lt_or_ge v userPages with hlt | hge
  · have hleaf : Holds .empty s (.leaf root v) _ := ⟨hlt, hV, rfl⟩
    exact absurd (h.exclusive hfree' hleaf) nofun
  · rcases Nat.lt_or_ge v (userPages + 2) with hlt | htop
    · obtain rfl | rfl : v = userPages ∨ v = userPages + 1 := by omega
      · have htf : Holds .empty s (.trapframe p) _ := hfixed.trapframe.2
        exact absurd (h.exclusive hfree' htf) nofun
      · -- the trampoline is part of the kernel image
        have hk := (h.ram .free _ hfree').2
        have himage := h.image
        rw [hfixed.trampoline.2] at hk
        simp only [pgsize] at *
        omega
    · rw [h.top root v htop, isV_zero] at hV
      cases hV

theorem Own.pagesExclusive (h : Own .empty s) : PagesExclusive s := by
  refine ⟨fun p root v hp hV => h.mapped_not_free hp hV, ?_⟩
  intro p q r r' v w hp hq hv hw hV hW heq
  have hleaf : Holds .empty s (.leaf r v) _ := ⟨hv, hV, rfl⟩
  have hleaf' : Holds .empty s (.leaf r' w) _ := ⟨hw, hW, heq.symm⟩
  have huse := h.exclusive hleaf hleaf'
  cases huse
  exact ⟨h.apart p q r ⟨nofun, hp⟩ ⟨nofun, hq⟩, rfl⟩

/-- Every page has one place after any run in which the frame table is
right about every frame that is swapped out. -/
theorem pages_exclusive (h : Runs EntriesAccurate n s) : PagesExclusive s := h.own.pagesExclusive

/-- A check of `EntriesAccurate`. -/
def entriesAccurate : Mark → Kernel → Bool
  | .swapOut idx, s =>
    match (s.frameTable idx).owner with
    | none => false
    | some p =>
      isV (s.procPte p (s.frameTable idx).vaddr) && pte2pa (s.procPte p (s.frameTable idx).vaddr)
          == s.frameIndexToPa idx
  | _, _ => true

theorem entriesAccurate_of_check (k : Mark) (s : Kernel)
    (h : entriesAccurate k s = true) : EntriesAccurate k s := by
  cases k with
  | swapOut idx =>
    unfold entriesAccurate at h
    dsimp only at h
    split at h
    · cases h
    · next p hp =>
      rw [Bool.and_eq_true, beq_iff_eq] at h
      unfold Kernel.procPte at h
      cases hpt : (s.proc p).pagetable with
      | none =>
        rw [hpt] at h
        exact absurd (isV_zero.symm.trans h.1) nofun
      | some root =>
        rw [hpt] at h
        exact ⟨p, root, hp, hpt, h⟩
  | _ => trivial

/-- The first process touches one of two pages, and the other one when no
page is free: the first is evicted for it. -/
theorem pages_exclusive_evicted : ∃ n s, Runs EntriesAccurate n s
      ∧ isV (s.procPte 0 0) = false ∧ isV (s.procPte 0 0x1000) = true
      ∧ PagesExclusive s := by
  obtain ⟨n, s, hplay, hacc, hout, hin⟩ := played (o := playEvict [.userinit,
      .schedule 0 .running 3, .sbrk 0 0x2000 false, .fault 0 0, .script shortage] 0 0x1000 4 []
      smallBoot)
    (P := fun n s => n.all (fun x => entriesAccurate x.1 x.2) = true
      ∧ isV (s.procPte 0 0) = false ∧ isV (s.procPte 0 0x1000) = true) (by decide +kernel)
  have hr : Runs EntriesAccurate n s := Runs.playEvict smallBoot_booted hplay fun x hx =>
      entriesAccurate_of_check _ _ (List.all_eq_true.mp hacc x hx)
  exact ⟨n, s, hr, hout, hin, pages_exclusive hr⟩

/-- The frame of a page that was given back is mapped again, by `uvmalloc`;
the eviction its stale entry calls for maps it once more. -/
theorem pages_shared : ∃ n s, Runs (fun _ _ => True) n s
      ∧ isV (s.procPte 0 0) = true ∧ isV (s.procPte 0 0x2000) = true
      ∧ pte2pa (s.procPte 0 0) = pte2pa (s.procPte 0 0x2000)
      ∧ ¬ PagesExclusive s := by
  obtain ⟨n, s, hplay, hV, hW, hsame⟩ := played (o := playEvict [.userinit,
      .schedule 0 .running 3, .sbrk 0 0x2000 false, .fault 0 0x1000, .sbrk 0 (-0x2000) true,
      .sbrk 0 0x1000 true, .sbrk 0 0x2000 false, .script shortage] 0 0x2000 4 [] smallBoot)
    (P := fun _ s => isV (s.procPte 0 0) = true ∧ isV (s.procPte 0 0x2000) = true
      ∧ pte2pa (s.procPte 0 0) = pte2pa (s.procPte 0 0x2000)) (by decide +kernel)
  refine ⟨n, s, Runs.playEvict smallBoot_booted hplay fun _ _ => trivial,
    hV, hW, hsame, fun hex => ?_⟩
  unfold Kernel.procPte at hV hW hsame
  cases hpt : (s.proc 0).pagetable with
  | none =>
    rw [hpt] at hV
    exact absurd (isV_zero.symm.trans hV) nofun
  | some root =>
    rw [hpt] at hV hW hsame
    exact absurd (hex.2 0 0 root root 0 2 hpt hpt (by decide) (by decide) hV hW hsame).2 nofun

end GemOS
