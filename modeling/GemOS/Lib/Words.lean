/-
Little-endian 32-bit words in memory that is addressed by bytes.
-/
import Mathlib.Algebra.Group.Nat.Defs
import Mathlib.Logic.Function.Basic

/-- Word `j` of the bytes `f`. -/
def leWord (f : Nat → UInt8) (j : Nat) : Nat :=
  (f (4 * j)).toNat + 256 * (f (4 * j + 1)).toNat
    + 65536 * (f (4 * j + 2)).toNat + 16777216 * (f (4 * j + 3)).toNat

/-- The bytes `f` with word `j` overwritten. -/
def setWord (f : Nat → UInt8) (j w : Nat) : Nat → UInt8 := fun i =>
  if i / 4 = j then UInt8.ofNat (w / 256 ^ (i % 4)) else f i

/-- The bytes `f` with the words `b .. b + n` overwritten. -/
def setWords (f : Nat → UInt8) (b n : Nat) (w : Nat → Nat) : Nat → UInt8 := fun i =>
  if b ≤ i / 4 ∧ i / 4 < b + n then
    UInt8.ofNat (w (i / 4 - b) / 256 ^ (i % 4))
  else f i

theorem leWord_lt (f : Nat → UInt8) (j : Nat) : leWord f j < 2 ^ 32 := by
  have h0 := (f (4 * j)).toNat_lt
  have h1 := (f (4 * j + 1)).toNat_lt
  have h2 := (f (4 * j + 2)).toNat_lt
  have h3 := (f (4 * j + 3)).toNat_lt
  unfold leWord
  omega

theorem leWord_congr {f g : Nat → UInt8} {j : Nat}
    (h : ∀ i, i / 4 = j → f i = g i) : leWord f j = leWord g j := by
  unfold leWord
  rw [h (4 * j) (by omega), h (4 * j + 1) (by omega),
    h (4 * j + 2) (by omega), h (4 * j + 3) (by omega)]

theorem leWord_setWord_self (f : Nat → UInt8) (j : Nat) {w : Nat}
    (h : w < 2 ^ 32) : leWord (setWord f j w) j = w := by
  have hbyte : ∀ k < 4, (setWord f j w (4 * j + k)).toNat = w / 256 ^ k % 256 := by
    intro k hk
    unfold setWord
    rw [if_pos (by omega), show (4 * j + k) % 4 = k by omega]
    exact UInt8.toNat_ofNat'
  unfold leWord
  rw [show 4 * j = 4 * j + 0 from rfl, hbyte 0 (by omega),
    show 4 * j + 0 + 1 = 4 * j + 1 from rfl, hbyte 1 (by omega),
    show 4 * j + 0 + 2 = 4 * j + 2 from rfl, hbyte 2 (by omega),
    show 4 * j + 0 + 3 = 4 * j + 3 from rfl, hbyte 3 (by omega)]
  omega

theorem leWord_setWord_of_ne (f : Nat → UInt8) {j k : Nat} (w : Nat)
    (h : k ≠ j) : leWord (setWord f j w) k = leWord f k := by
  refine leWord_congr fun i hi => ?_
  unfold setWord
  rw [if_neg (by omega)]

theorem leWord_setWords (f : Nat → UInt8) {b n j : Nat} {w : Nat → Nat}
    (hj : j < n) (h : w j < 2 ^ 32) : leWord (setWords f b n w) (b + j) = w j := by
  rw [leWord_congr (g := setWord f (b + j) (w j))]
  · exact leWord_setWord_self f _ h
  · intro i hi
    unfold setWords setWord
    rw [if_pos (by omega), if_pos hi, hi, Nat.add_sub_cancel_left]

theorem leWord_setWords_of_ne (f : Nat → UInt8) {b n j : Nat}
    (w : Nat → Nat) (h : j < b ∨ b + n ≤ j) : leWord (setWords f b n w) j = leWord f j := by
  refine leWord_congr fun i hi => ?_
  unfold setWords
  rw [if_neg (by omega)]
