/-
A window into a ring of cells.

`window size data i n` is what stands in `n` cells from index `i` on, where
an index is taken modulo `size`. A queue whose head and tail only ever grow
is such a window; so is each part of it. Indices that wrap at a multiple of
`size` give the same window (`window_congr`).

Head and tail are often free-running counters, whose difference is taken in
their own 32 bits; the last section is about those.
-/
import Mathlib.Logic.Function.Basic
import Mathlib.Data.List.Basic
import Mathlib.Algebra.Group.Nat.Defs

namespace Ring

variable {α : Type} {size : Nat} {data : Nat → α} {i j m n : Nat}

def window (size : Nat) (data : Nat → α) (i n : Nat) : List α :=
  (List.range n).map fun k => data ((i + k) % size)

@[simp] theorem length_window : (window size data i n).length = n := by
  unfold window
  rw [List.length_map, List.length_range]

@[simp] theorem window_zero : window size data i 0 = [] := rfl

theorem window_congr (h : i % size = j % size) : window size data i n = window size data j n := by
  refine List.map_congr_left fun k _ => ?_
  rw [Nat.add_mod i, h, ← Nat.add_mod]

/-- The last cell of a window. -/
theorem window_snoc : window size data i (n + 1)
    = window size data i n ++ [data ((i + n) % size)] := by
  unfold window
  rw [List.range_succ, List.map_append]
  rfl

/-- The first cell of a window. -/
theorem window_cons : window size data i (n + 1)
    = data (i % size) :: window size data (i + 1) n := by
  unfold window
  rw [List.range_succ_eq_map, List.map_cons, List.map_map]
  refine congrArg _ (List.map_congr_left fun k _ => ?_)
  show data ((i + (k + 1)) % size) = _
  rw [Nat.add_right_comm, Nat.add_assoc]

/-- A window is cut in two. -/
theorem window_add : window size data i (m + n)
    = window size data i m ++ window size data (i + m) n := by
  induction n with
  | zero => rw [Nat.add_zero, window_zero, List.append_nil]
  | succ n ih =>
    rw [← Nat.add_assoc, window_snoc, ih, window_snoc, List.append_assoc, Nat.add_assoc]

theorem mod_ne_mod {k : Nat} (hk : k < m) (hm : m < size) : (i + k) % size ≠ (i + m) % size := by
  intro h
  have hdvd := Nat.sub_mod_eq_zero_of_mod_eq h.symm
  rw [show i + m - (i + k) = m - k by omega, Nat.mod_eq_of_lt (by omega)] at hdvd
  omega

/-- The cell behind a window that leaves room for it is none of its own. -/
theorem window_update (x : α) (hn : n ≤ m) (hm : m < size) :
    window size (Function.update data ((i + m) % size) x) i n = window size data i n := by
  refine List.map_congr_left fun k hk => ?_
  rw [List.mem_range] at hk
  exact Function.update_of_ne (mod_ne_mod (by omega) hm) ..

-- ======== counters

variable {a b : UInt32}

theorem toNat_sub_eq_zero : (a - b).toNat = 0 ↔ a = b := by
  have ha := a.toNat_lt
  have hb := b.toNat_lt
  rw [UInt32.toNat_sub, ← UInt32.toNat_inj]
  omega

/-- The tail moves on. -/
theorem toNat_succ_sub {k : Nat} (h : (b - a).toNat < k) (hk : k ≤ 2 ^ 32 - 1) :
    (b + 1 - a).toNat = (b - a).toNat + 1 := by
  have ha := a.toNat_lt
  have hb := b.toNat_lt
  rw [UInt32.toNat_sub] at *
  rw [UInt32.toNat_sub, UInt32.toNat_add]
  simp only [UInt32.toNat_one]
  omega

/-- The tail moves back. -/
theorem toNat_pred_sub (h : 0 < (b - a).toNat) : (b - a).toNat = (b - 1 - a).toNat + 1 := by
  have ha := a.toNat_lt
  have hb := b.toNat_lt
  rw [UInt32.toNat_sub] at *
  rw [UInt32.toNat_sub, UInt32.toNat_sub]
  simp only [UInt32.toNat_one]
  omega

/-- The head moves on. -/
theorem toNat_sub_succ (h : 0 < (b - a).toNat) : (b - a).toNat = (b - (a + 1)).toNat + 1 := by
  have ha := a.toNat_lt
  have hb := b.toNat_lt
  rw [UInt32.toNat_sub] at *
  rw [UInt32.toNat_sub, UInt32.toNat_add]
  simp only [UInt32.toNat_one]
  omega

/-- The cell of a counter, counted from another one. -/
theorem cell_eq (hs : size ∣ 2 ^ 32) (a b : UInt32) :
    b.toNat % size = (a.toNat + (b - a).toNat) % size := by
  have ha := a.toNat_lt
  rw [UInt32.toNat_sub, Nat.add_mod, Nat.mod_mod_of_dvd _ hs, ← Nat.add_mod,
    show a.toNat + (2 ^ 32 - a.toNat + b.toNat) = b.toNat + 2 ^ 32 by omega, Nat.add_mod b.toNat,
    Nat.mod_eq_zero_of_dvd hs, Nat.add_zero, Nat.mod_mod]

theorem cell_succ (hs : size ∣ 2 ^ 32) (a : UInt32) :
    (a.toNat + 1) % size = (a + 1).toNat % size := by
  rw [UInt32.toNat_add]
  exact (Nat.mod_mod_of_dvd _ hs).symm

end Ring
