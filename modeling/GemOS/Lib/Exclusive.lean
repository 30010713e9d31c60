/-
Exclusive use: a relation between uses and things in which no thing has
two uses, and how it survives when things change hands.

A thing changes hands in two steps: it is dropped (`mono`), after which
nothing uses it, and put to its new use (`gain`). `transfer` is the
general rule, where every thing in use afterwards was in use before and
its old use determines the new one.

A `Ledger` is exclusive use of things from a pool, with a mark on every
thing in use: what an allocator keeps whose marks say what may not be
handed out.
-/
import Mathlib.Logic.Basic

/-- No thing has two uses. -/
def Exclusive {U A : Type} (H : U → A → Prop) : Prop :=
  ∀ ⦃u v a⦄, H u a → H v a → u = v

namespace Exclusive

variable {U A : Type} {H H' : U → A → Prop}

/-- Nothing is put to a new use. -/
theorem mono (h : Exclusive H) (hsub : ∀ u a, H' u a → H u a) : Exclusive H' :=
  fun _ _ _ hu hv => h (hsub _ _ hu) (hsub _ _ hv)

/-- The thing `a0`, not used so far, is put to use `u0`. -/
theorem gain (h : Exclusive H) {u0 : U} {a0 : A} (hfree : ∀ u, ¬ H u a0)
    (hgain : ∀ u a, H' u a → (u = u0 ∧ a = a0) ∨ H u a) : Exclusive H' := by
  intro u v a hu hv
  rcases hgain u a hu with ⟨rfl, rfl⟩ | hu'
  · rcases hgain v a hv with ⟨rfl, -⟩ | hv'
    · rfl
    · exact absurd hv' (hfree v)
  · rcases hgain v a hv with ⟨rfl, rfl⟩ | hv'
    · exact absurd hu' (hfree u)
    · exact h hu' hv'

/-- The old use of a thing determines its new one. -/
theorem transfer (h : Exclusive H) (f : U → A → U)
    (hf : ∀ u a, H' u a → ∃ v, H v a ∧ f v a = u) : Exclusive H' := by
  intro u v a hu hv
  obtain ⟨u0, hu0, rfl⟩ := hf u a hu
  obtain ⟨v0, hv0, rfl⟩ := hf v a hv
  rw [h hu0 hv0]

end Exclusive

/-- Exclusive use of things from a pool, all of them marked. -/
structure Ledger {U A : Type} (mark pool : A → Prop) (H : U → A → Prop) :
    Prop where
  excl : Exclusive H
  marked : ∀ u a, H u a → mark a
  inPool : ∀ u a, H u a → pool a

namespace Ledger

variable {U A : Type} {mark mark' pool : A → Prop} {H H' : U → A → Prop}

theorem mono (h : Ledger mark pool H) (hmark : ∀ a, mark a → mark' a)
    (hsub : ∀ u a, H' u a → H u a) : Ledger mark' pool H' where
  excl := h.excl.mono hsub
  marked := fun u a hu => hmark a (h.marked u a (hsub u a hu))
  inPool := fun u a hu => h.inPool u a (hsub u a hu)

/-- A thing of the pool that had no mark gets one and is put to use. -/
theorem gain (h : Ledger mark pool H) (u0 : U) {a0 : A} (hfree : ¬ mark a0) (hpool : pool a0)
    (hmark : ∀ a, mark' a ↔ mark a ∨ a = a0) (hgain : ∀ u a, H' u a → (u = u0 ∧ a = a0) ∨ H u a) :
    Ledger mark' pool H' where
  excl := h.excl.gain (fun u hu => hfree (h.marked u a0 hu)) hgain
  marked := by
    intro u a hu
    apply (hmark a).mpr
    rcases hgain u a hu with ⟨-, ha⟩ | hold
    · exact .inr ha
    · exact .inl (h.marked u a hold)
  inPool := by
    intro u a hu
    rcases hgain u a hu with ⟨-, ha⟩ | hold
    · exact ha ▸ hpool
    · exact h.inPool u a hold

/-- The uses `D` end and their things lose the mark. -/
theorem drop (h : Ledger mark pool H) (D : U → Prop)
    (hmark : ∀ a, mark' a ↔ mark a ∧ ¬ ∃ u, D u ∧ H u a)
    (hsub : ∀ u a, H' u a → H u a ∧ ¬ D u) : Ledger mark' pool H' where
  excl := h.excl.mono fun u a hu => (hsub u a hu).1
  marked := by
    intro u a hu
    obtain ⟨hold, hne⟩ := hsub u a hu
    refine (hmark a).mpr ⟨h.marked u a hold, ?_⟩
    intro hd
    obtain ⟨v, hv, hva⟩ := hd
    rw [h.excl hold hva] at hne
    exact hne hv
  inPool := fun u a hu => h.inPool u a (hsub u a hu).1

end Ledger
