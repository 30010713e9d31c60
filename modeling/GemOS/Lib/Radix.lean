/-
Multi-level tables in a flat memory.

Memory is a map from pages and indices to words; `dec` reads a word as a
link to a page. `descend mem p π` follows the links of path `π` from page
`p`. The tables of a tree of depth `d` are the pages at the paths of at
most `d` links. `Radix` says that no page is the table of two paths: this
is what makes a store to one entry change the paths through that entry
and no others (`descend_store`), and what keeps a page that is linked in
for the first time from showing up elsewhere (`Radix.link`).
-/
import Mathlib.Data.List.Basic
import Mathlib.Data.List.Induction
import Mathlib.Data.List.Infix

variable {Pg Ix Wd : Type} {dec : Wd → Option Pg}

/-- The page at path `π` below `p`. -/
def descend (dec : Wd → Option Pg) (mem : Pg → Ix → Wd) : Pg → List Ix → Option Pg
  | p, [] => some p
  | p, i :: π => (dec (mem p i)).bind fun q => descend dec mem q π

/-- The page is a table of the tree of depth `d` below `root`. -/
def IsTable (dec : Wd → Option Pg) (mem : Pg → Ix → Wd) (root : Pg) (d : Nat) (p : Pg) : Prop :=
  ∃ π, π.length ≤ d ∧ descend dec mem root π = some p

/-- No page is the table of two paths. -/
def Radix (dec : Wd → Option Pg) (mem : Pg → Ix → Wd) (root : Pg) (d : Nat) :
    Prop :=
  ∀ π ρ p, π.length ≤ d → ρ.length ≤ d → descend dec mem root π = some p →
    descend dec mem root ρ = some p → π = ρ

section descend

variable {mem mem' : Pg → Ix → Wd} {root p q : Pg} {π ρ : List Ix} {d : Nat} {i k : Ix}

theorem descend_append (π ρ : List Ix) : descend dec mem root (π ++ ρ)
    = (descend dec mem root π).bind fun p => descend dec mem p ρ := by
  induction π generalizing root with
  | nil => rfl
  | cons i π ih =>
    show (dec (mem root i)).bind (fun q => descend dec mem q (π ++ ρ))
      = ((dec (mem root i)).bind fun q => descend dec mem q π).bind _
    rw [Option.bind_assoc]
    congr 1
    funext q
    exact ih

theorem descend_snoc (π : List Ix) (i : Ix) : descend dec mem root (π ++ [i])
      = (descend dec mem root π).bind fun p => dec (mem p i) := by
  rw [descend_append]
  congr 1
  funext p
  exact Option.bind_fun_some (dec (mem p i))

/-- Two memories that agree on the entries along a path. -/
theorem descend_congr (h : ∀ σ j p, σ ++ [j] <+: ρ → descend dec mem root σ = some p →
      mem' p j = mem p j) :
    descend dec mem' root ρ = descend dec mem root ρ := by
  induction ρ using List.reverseRecOn with
  | nil => rfl
  | append_singleton ρ j ih =>
    have hρ := ih fun σ j' p hpre => h σ j' p (hpre.trans (List.prefix_append ρ [j]))
    rw [descend_snoc, descend_snoc, hρ]
    cases hp : descend dec mem root ρ with
    | none => rfl
    | some p =>
      show dec (mem' p j) = dec (mem p j)
      rw [h ρ j p (List.prefix_refl _) hp]

theorem depth_of_path {σ : List Ix} {j : Ix} (h : σ ++ [j] <+: ρ)
    (hρ : ρ.length ≤ d + 1) : σ.length ≤ d := by
  have hlen := h.length_le
  rw [List.length_append, List.length_singleton] at hlen
  omega

/-- A path that does not go through entry `k` of the table at `π` does not
read that entry. -/
theorem Radix.off_path (hR : Radix dec mem root d)
    (hq : descend dec mem root π = some q) (hπ : π.length ≤ d)
    (hρ : ρ.length ≤ d + 1) (hno : ¬ π ++ [k] <+: ρ) {σ : List Ix} {j : Ix}
    (hpre : σ ++ [j] <+: ρ) (hp : descend dec mem root σ = some p) : p ≠ q ∨ j ≠ k := by
  by_cases hpq : p = q
  · refine .inr fun hjk => hno ?_
    have heq := hR σ π p (depth_of_path hpre hρ) hπ hp (hpq ▸ hq)
    rw [heq, hjk] at hpre
    exact hpre
  · exact .inl hpq

/-- A store to entry `k` of the table at `π` changes the paths through
that entry only. -/
theorem descend_store (hR : Radix dec mem root d)
    (hq : descend dec mem root π = some q) (hπ : π.length ≤ d)
    (hmem : ∀ p j, p ≠ q ∨ j ≠ k → mem' p j = mem p j)
    (hρ : ρ.length ≤ d + 1) (hno : ¬ π ++ [k] <+: ρ) :
    descend dec mem' root ρ = descend dec mem root ρ :=
  descend_congr fun _ j p hpre hp => hmem p j (hR.off_path hq hπ hρ hno hpre hp)

/-- What happens to a page that is no table changes no path. -/
theorem descend_other (hq : ¬ IsTable dec mem root d q)
    (hmem : ∀ p, p ≠ q → mem' p = mem p) (hρ : ρ.length ≤ d + 1) :
    descend dec mem' root ρ = descend dec mem root ρ := by
  refine descend_congr fun σ j p hpre hp => ?_
  have hpq : p ≠ q := fun heq => hq ⟨σ, depth_of_path hpre hρ, heq ▸ hp⟩
  rw [hmem p hpq]

theorem Radix.congr (hR : Radix dec mem root d) (h : ∀ ρ, ρ.length ≤ d →
      descend dec mem' root ρ = descend dec mem root ρ) :
    Radix dec mem' root d := by
  intro π ρ p hπ hρ hp hp'
  rw [h π hπ] at hp
  rw [h ρ hρ] at hp'
  exact hR π ρ p hπ hρ hp hp'

/-- Nothing lies below a page without links. -/
theorem descend_empty (h : ∀ i, dec (mem p i) = none) (hρ : ρ ≠ []) :
    descend dec mem p ρ = none := by
  cases ρ with
  | nil => exact absurd rfl hρ
  | cons i ρ =>
    unfold descend
    rw [h i]
    rfl

-- ======== a new table

/-- Page `q'`, which was no table and is now empty, has been linked under
entry `k` of the table at `π`, where there was no link. -/
structure Grafted (dec : Wd → Option Pg) (mem mem' : Pg → Ix → Wd) (root : Pg)
    (d : Nat) (π : List Ix) (q : Pg) (k : Ix) (q' : Pg) : Prop where
  radix : Radix dec mem root d
  at' : descend dec mem root π = some q
  depth : π.length < d
  none : dec (mem q k) = none
  fresh : ¬ IsTable dec mem root d q'
  link : dec (mem' q k) = some q'
  empty : ∀ i, dec (mem' q' i) = .none
  others : ∀ p j, p ≠ q' → p ≠ q ∨ j ≠ k → mem' p j = mem p j

namespace Grafted

variable {q' : Pg} (h : Grafted dec mem mem' root d π q k q')

include h

/-- The paths that do not go through the new link. -/
theorem frame (hρ : ρ.length ≤ d + 1) (hno : ¬ π ++ [k] <+: ρ) :
    descend dec mem' root ρ = descend dec mem root ρ := by
  refine descend_congr fun σ j p hpre hp => h.others p j ?_
    (h.radix.off_path h.at' (Nat.le_of_lt h.depth) hρ hno hpre hp)
  intro heq
  exact h.fresh ⟨σ, depth_of_path hpre hρ, heq ▸ hp⟩

/-- The new link leads to the new table. -/
theorem new : descend dec mem' root (π ++ [k]) = some q' := by
  have hdepth := h.depth
  have hq : descend dec mem' root π = some q := by
    rw [h.frame (by omega) fun hpre => ?_, h.at']
    have hlen := hpre.length_le
    rw [List.length_append, List.length_singleton] at hlen
    omega
  rw [descend_snoc, hq]
  exact h.link

/-- Below the new table there is nothing. -/
theorem below {σ : List Ix} (hσ : σ ≠ []) : descend dec mem' root (π ++ [k] ++ σ) = .none := by
  rw [descend_append, h.new]
  exact descend_empty h.empty hσ

/-- Before, there was nothing there either. -/
theorem before (σ : List Ix) : descend dec mem root (π ++ [k] ++ σ) = .none := by
  have hnone : descend dec mem root (π ++ [k]) = .none := by
    rw [descend_snoc, h.at']
    exact h.none
  rw [descend_append, hnone]
  rfl

theorem keeps : Radix dec mem' root d := by
  -- where a path leads, now that the link is there
  have hcases : ∀ ρ p, ρ.length ≤ d → descend dec mem' root ρ = some p →
      ρ = π ++ [k] ∧ p = q' ∨ descend dec mem root ρ = some p ∧ p ≠ q' := by
    intro ρ p hρ hp
    by_cases hpre : π ++ [k] <+: ρ
    · obtain ⟨σ, rfl⟩ := hpre
      by_cases hσ : σ = []
      · rw [hσ, List.append_nil] at hp ⊢
        rw [h.new] at hp
        exact .inl ⟨rfl, (Option.some.inj hp).symm⟩
      · rw [h.below hσ] at hp
        cases hp
    · rw [h.frame (by omega) hpre] at hp
      exact .inr ⟨hp, fun heq => h.fresh ⟨ρ, hρ, heq ▸ hp⟩⟩
  intro ρ ρ' p hρ hρ' hp hp'
  rcases hcases ρ p hρ hp with ⟨h1, h2⟩ | ⟨h1, h2⟩
  · rcases hcases ρ' p hρ' hp' with ⟨h3, -⟩ | ⟨-, h4⟩
    · rw [h1, h3]
    · exact absurd h2 h4
  · rcases hcases ρ' p hρ' hp' with ⟨-, h4⟩ | ⟨h3, -⟩
    · exact absurd h4 h2
    · exact h.radix ρ ρ' p hρ hρ' h1 h3

end Grafted

end descend
