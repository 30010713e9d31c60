/-
Whose page is it: the free list, the pages the rest of the kernel holds,
and a list of pages in use are disjoint and duplicate-free.

`PagesApart` is kept by every move of a page between the three, because
a move permutes their concatenation (`PagesApart.of_perm`).
-/
import Mathlib.Data.Finset.Card
import GemOS.Kernel.Boot

namespace GemOS

open Prog

/-- Pages that are free, held by the rest of the kernel or in `l` are
distinct pages of RAM. -/
structure PagesApart (s : Kernel) (l : List Nat) : Prop where
  nodup : (s.freelist ++ s.held ++ l).Nodup
  ram : ∀ pa ∈ s.freelist ++ s.held ++ l, RamPage pa

variable {l out : List Nat} {s : Kernel}

theorem PagesApart.of_perm {s' : Kernel} {l' : List Nat} (h : PagesApart s l)
    (hp : (s'.freelist ++ s'.held ++ l').Perm (s.freelist ++ s.held ++ l)) : PagesApart s' l' :=
  ⟨hp.nodup_iff.mpr h.nodup, fun pa hpa => h.ram pa (hp.mem_iff.mp hpa)⟩

/-- The turn of the rest of the kernel before an allocation. -/
theorem PagesApart.interfered (h : PagesApart s l) : PagesApart s.interfered l := by
  obtain ⟨fl, hd, m, e, hs, hp⟩ := s.interfered_shape
  refine h.of_perm ?_
  rw [hs]
  exact hp.append_right l

/-- Distinct pages of RAM are no more than RAM has. -/
theorem length_le_ramPages (hnd : l.Nodup) (hram : ∀ pa ∈ l, RamPage pa) : l.length ≤ ramPages := by
  have hsub : l.toFinset ⊆ (Finset.range ramPages).image fun i => kernbase + i * pgsize := by
    intro pa hpa
    obtain ⟨halign, hlo, hhi⟩ := hram pa (List.mem_toFinset.mp hpa)
    refine Finset.mem_image.mpr ⟨(pa - kernbase) / pgsize, ?_, ?_⟩
    · grind
    · simp only [pgsize, kernbase] at *
      omega
  calc l.length = l.toFinset.card := (List.toFinset_card_of_nodup hnd).symm
    _ ≤ _ := Finset.card_le_card hsub
    _ ≤ (Finset.range ramPages).card := Finset.card_image_le
    _ = ramPages := Finset.card_range _

theorem PagesApart.length_le (h : PagesApart s (l ++ out)) : l.length ≤ ramPages := by
  have hsub : l.Sublist (s.freelist ++ s.held ++ (l ++ out)) :=
    (List.sublist_append_left l out).trans (List.sublist_append_right ..)
  exact length_le_ramPages (h.nodup.sublist hsub) fun pa hpa => h.ram pa (hsub.subset hpa)

/-- What is free is not in use. -/
theorem PagesApart.fresh {a : Nat} {rest : List Nat}
    (h : PagesApart s (l ++ out)) (hfree : s.freelist = a :: rest) : a ∉ l := by
  intro hal
  have hnd := h.nodup
  rw [hfree, List.append_assoc, List.cons_append] at hnd
  exact (List.nodup_cons.mp hnd).1 (by simp [hal])

end GemOS
