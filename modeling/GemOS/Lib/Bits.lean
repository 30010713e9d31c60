/-
Bits in memory that is addressed by bytes: bit `i` is bit `i % 8` of byte
`i / 8`.
-/
import Mathlib.Logic.Function.Basic
import Mathlib.Data.Nat.Bitwise

/-- `1 << (i % 8)`. -/
def bitMask (i : Nat) : UInt8 := UInt8.ofNat (2 ^ (i % 8))

/-- `f[i/8] & (1 << (i % 8))` is not zero. -/
def bitAt (f : Nat → UInt8) (i : Nat) : Bool := f (i / 8) &&& bitMask i != 0

/-- `f[i/8] |= 1 << (i % 8)`. -/
def setBit (f : Nat → UInt8) (i : Nat) : Nat → UInt8 :=
  Function.update f (i / 8) (f (i / 8) ||| bitMask i)

/-- `f[i/8] &= ~(1 << (i % 8))`. -/
def clearBit (f : Nat → UInt8) (i : Nat) : Nat → UInt8 :=
  Function.update f (i / 8) (f (i / 8) &&& ~~~ bitMask i)

theorem bitMask_toNat (i : Nat) : (bitMask i).toNat = 2 ^ (i % 8) := by
  unfold bitMask
  rw [UInt8.toNat_ofNat']
  exact Nat.mod_eq_of_lt (Nat.pow_lt_pow_right (by decide) (by omega))

theorem bitAt_eq (f : Nat → UInt8) (i : Nat) : bitAt f i = (f (i / 8)).toNat.testBit (i % 8) := by
  have hz : (f (i / 8) &&& bitMask i = 0) ↔ (f (i / 8)).toNat.testBit (i % 8) = false := by
    rw [← UInt8.toNat_inj, UInt8.toNat_and, bitMask_toNat, Nat.and_two_pow]
    cases (f (i / 8)).toNat.testBit (i % 8) with
    | false => simp
    | true =>
      have : 0 < 2 ^ (i % 8) := Nat.two_pow_pos _
      simp
  unfold bitAt
  cases hb : (f (i / 8)).toNat.testBit (i % 8) with
  | false => simp [hz.mpr hb]
  | true =>
    have hne : f (i / 8) &&& bitMask i ≠ 0 := by
      intro h0
      rw [hz.mp h0] at hb
      cases hb
    simp [hne]

theorem testBit_bitMask (i k : Nat) : (bitMask i).toNat.testBit k = decide (k = i % 8) := by
  rw [bitMask_toNat, Nat.testBit_two_pow]
  simp [eq_comm]

@[simp] theorem bitAt_setBit_self (f : Nat → UInt8) (i : Nat) : bitAt (setBit f i) i = true := by
  rw [bitAt_eq, setBit, Function.update_self, UInt8.toNat_or, Nat.testBit_or, testBit_bitMask]
  simp

theorem bitAt_setBit_of_ne (f : Nat → UInt8) {i j : Nat} (h : j ≠ i) :
    bitAt (setBit f i) j = bitAt f j := by
  rw [bitAt_eq, bitAt_eq, setBit]
  by_cases hbyte : j / 8 = i / 8
  · rw [hbyte, Function.update_self, UInt8.toNat_or, Nat.testBit_or,
      testBit_bitMask, decide_eq_false (by omega), Bool.or_false]
  · rw [Function.update_of_ne hbyte]

theorem testBit_not_bitMask (i : Nat) {k : Nat} (hk : k < 8) :
    (~~~ bitMask i).toNat.testBit k = !decide (k = i % 8) := by
  rw [UInt8.toNat_not, bitMask_toNat]
  have hlt : 2 ^ (i % 8) < 2 ^ 8 := Nat.pow_lt_pow_right (by decide) (by omega)
  have hsub : 2 ^ 8 - 1 - 2 ^ (i % 8) = 2 ^ 8 - (2 ^ (i % 8) + 1) := by omega
  rw [show UInt8.size - 1 - 2 ^ (i % 8) = 2 ^ 8 - (2 ^ (i % 8) + 1) from hsub,
    Nat.testBit_two_pow_sub_succ hlt, Nat.testBit_two_pow]
  simp [hk, eq_comm]

@[simp] theorem bitAt_clearBit_self (f : Nat → UInt8) (i : Nat) :
    bitAt (clearBit f i) i = false := by
  rw [bitAt_eq, clearBit, Function.update_self, UInt8.toNat_and,
    Nat.testBit_and, testBit_not_bitMask i (by omega)]
  simp

theorem bitAt_clearBit_of_ne (f : Nat → UInt8) {i j : Nat} (h : j ≠ i) :
    bitAt (clearBit f i) j = bitAt f j := by
  rw [bitAt_eq, bitAt_eq, clearBit]
  by_cases hbyte : j / 8 = i / 8
  · rw [hbyte, Function.update_self, UInt8.toNat_and, Nat.testBit_and,
      testBit_not_bitMask i (by omega), decide_eq_false (by omega)]
    simp
  · rw [Function.update_of_ne hbyte]
