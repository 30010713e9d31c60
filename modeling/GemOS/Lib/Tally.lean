/-
Weighted counts over a finite set of places, and how they change when
the contents of one place do.

`tally s w f` adds up what the contents `f i` of the places `i ∈ s` weigh.
`tally_update` is stated without subtraction, so that `omega` can use it
in either direction.
-/
import Mathlib.Algebra.BigOperators.Group.Finset.Basic
import Mathlib.Algebra.Order.BigOperators.Group.Finset
import Mathlib.Algebra.BigOperators.Ring.Finset

variable {ι α : Type} {s : Finset ι} {w : α → Nat} {f g : ι → α}

/-- The weight of everything in the places `s`. -/
@[irreducible] def tally (s : Finset ι) (w : α → Nat) (f : ι → α) : Nat :=
  ∑ i ∈ s, w (f i)

theorem tally_congr {v : α → Nat} (h : ∀ i ∈ s, w (f i) = v (g i)) : tally s w f = tally s v g := by
  unfold tally
  exact Finset.sum_congr rfl h

theorem le_tally {i : ι} (hi : i ∈ s) : w (f i) ≤ tally s w f := by
  unfold tally
  exact Finset.single_le_sum (f := fun i => w (f i)) (fun _ _ => Nat.zero_le _) hi

theorem tally_eq_zero : tally s w f = 0 ↔ ∀ i ∈ s, w (f i) = 0 := by
  unfold tally
  exact Finset.sum_eq_zero_iff

/-- A sum of bounded weights. -/
theorem tally_le_mul {v : α → Nat} {k : Nat}
    (h : ∀ i ∈ s, w (f i) ≤ k * v (f i)) : tally s w f ≤ k * tally s v f := by
  unfold tally
  rw [Finset.mul_sum]
  exact Finset.sum_le_sum h

theorem tally_le_card (h : ∀ i ∈ s, w (f i) ≤ 1) : tally s w f ≤ s.card := by
  unfold tally
  exact (Finset.sum_le_card_nsmul s _ 1 h).trans_eq (s.card.mul_one)

theorem tally_add {v : α → Nat} : tally s (fun a => w a + v a) f = tally s w f + tally s v f := by
  unfold tally
  exact Finset.sum_add_distrib

/-- Places that weigh one or nothing, and one only where `Q` holds, are
counted. -/
theorem tally_indicator {P : α → Prop} {Q : ι → Prop} [DecidablePred P] [DecidablePred Q]
    (h : ∀ i, P (f i) → Q i) : tally s (fun a => if P a then 1 else 0) f
      = (s.filter fun i => Q i ∧ P (f i)).card := by
  unfold tally
  rw [← Finset.card_filter]
  refine congrArg Finset.card (Finset.filter_congr fun i _ => ?_)
  exact ⟨fun hi => ⟨h i hi, hi⟩, And.right⟩

variable [DecidableEq ι]

/-- Two places are part of the whole. -/
theorem add_le_tally {i j : ι} (hi : i ∈ s) (hj : j ∈ s) (hne : i ≠ j) :
    w (f i) + w (f j) ≤ tally s w f := by
  have hsub : {i, j} ⊆ s := Finset.insert_subset hi (Finset.singleton_subset_iff.mpr hj)
  unfold tally
  rw [← Finset.sum_pair (f := fun i => w (f i)) hne]
  exact Finset.sum_le_sum_of_subset hsub

/-- A place of no weight may be counted. -/
theorem tally_insert {i : ι} (h : w (f i) = 0) : tally (insert i s) w f = tally s w f := by
  unfold tally
  exact Finset.sum_insert_zero h

/-- The contents of one place change. -/
theorem tally_update {i : ι} (hi : i ∈ s) (a : α) :
    tally s w (Function.update f i a) + w (f i) = tally s w f + w a := by
  have hrest : ∑ j ∈ s.erase i, w (Function.update f i a j) = ∑ j ∈ s.erase i, w (f j) := by
    refine Finset.sum_congr rfl fun j hj => ?_
    rw [Function.update_of_ne (Finset.ne_of_mem_erase hj)]
  unfold tally
  rw [← Finset.add_sum_erase s (fun j => w (f j)) hi,
    ← Finset.add_sum_erase s (fun j => w (Function.update f i a j)) hi, hrest, Function.update_self]
  omega
