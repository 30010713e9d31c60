/-
PTE words: the bits `mappages`, `swap_page_out`, `vmfault` and
`uvmclear` write, and what the readers get back.

Every flag test is a `testBit`, which distributes over the `|` and `&`
of the source; the address is what is left above the ten flag bits.
-/
import Mathlib.Tactic.IntervalCases
import GemOS.Kernel.Memsys

namespace GemOS

-- ======== flags

theorem isV_eq (w : Nat) : isV w = w.testBit 0 := by
  unfold isV pteV
  rw [show (1 : Nat) = 2 ^ 0 from rfl, Nat.and_two_pow]
  cases w.testBit 0 <;> rfl

theorem isU_eq (w : Nat) : isU w = w.testBit 4 := by
  unfold isU pteU
  rw [show (16 : Nat) = 2 ^ 4 from rfl, Nat.and_two_pow]
  cases w.testBit 4 <;> rfl

@[simp] theorem isV_zero : isV 0 = false := rfl

/-- A word with `PTE_V` written into it is valid. -/
@[simp] theorem isV_or_pteV (w : Nat) : isV (w ||| pteV) = true := by
  rw [isV_eq, Nat.testBit_or, show Nat.testBit pteV 0 = true from rfl, Bool.or_true]

/-- The accessed bit is not the valid bit. -/
@[simp] theorem isV_or_pteA (w : Nat) : isV (w ||| pteA) = isV w := by
  rw [isV_eq, isV_eq, Nat.testBit_or, show Nat.testBit pteA 0 = false from rfl, Bool.or_false]

@[simp] theorem isV_clearFlag_pteU (w : Nat) : isV (clearFlag w pteU) = isV w := by
  rw [isV_eq, isV_eq, clearFlag, Nat.testBit_and,
    show Nat.testBit (2 ^ 64 - 1 - pteU) 0 = true by decide, Bool.and_true]

/-- A page that was swapped out is no longer valid. -/
@[simp] theorem isV_swappedPte (w slot : Nat) : isV (swappedPte w slot) = false := by
  rw [isV_eq, swappedPte, Nat.testBit_or, clearFlag, Nat.testBit_and,
    show Nat.testBit (2 ^ 64 - 1 - pteV) 0 = false by decide, Bool.and_false,
    Bool.false_or, Nat.testBit_shiftLeft]
  rfl

/-- The other flags stay, as the index is written above them. -/
theorem testBit_swappedPte (w slot : Nat) {b : Nat} (h1 : 1 ≤ b)
    (h10 : b < 10) : (swappedPte w slot).testBit b = w.testBit b := by
  have hmask : (2 ^ 64 - 1 - pteV).testBit b = true := by
    interval_cases b <;> decide
  rw [swappedPte, clearFlag, Nat.testBit_or, Nat.testBit_and, hmask,
    Bool.and_true, Nat.testBit_shiftLeft, decide_eq_false (by omega), Bool.false_and, Bool.or_false]

/-- The index is ORed onto the page number. -/
theorem swappedPte_shiftRight {w : Nat} (slot : Nat) (hw : w < 2 ^ 64) :
    swappedPte w slot >>> 10 = (w >>> 10) ||| slot := by
  have hclear : clearFlag w pteV >>> 10 = w >>> 10 := by
    rw [clearFlag, Nat.shiftRight_and_distrib,
      show (2 ^ 64 - 1 - pteV) >>> 10 = 2 ^ 54 - 1 by decide,
      Nat.and_two_pow_sub_one_eq_mod, Nat.shiftRight_eq_div_pow]
    exact Nat.mod_eq_of_lt (by omega)
  rw [swappedPte, Nat.shiftRight_or_distrib, hclear, Nat.shiftLeft_shiftRight]

-- ======== address

/-- Flags do not reach into the address. -/
theorem pte2pa_or {f : Nat} (w : Nat) (hf : f < 1024) : pte2pa (w ||| f) = pte2pa w := by
  unfold pte2pa
  rw [Nat.shiftRight_or_distrib, Nat.shiftRight_eq_div_pow f, Nat.div_eq_of_lt hf, Nat.or_zero]

@[simp] theorem pte2pa_pa2pte {pa : Nat} (halign : pa % pgsize = 0)
    (hhi : pa < phystop) : pte2pa (pa2pte pa) = pa := by
  unfold pte2pa pa2pte
  simp only [Nat.shiftLeft_eq, Nat.shiftRight_eq_div_pow, pgsize, phystop] at *
  omega

theorem pte2pa_clearFlag {f : Nat} (w : Nat) (hf : f < 1024) :
    pte2pa (clearFlag w f) = pte2pa w := by
  have hmask : (2 ^ 64 - 1 - f) >>> 10 = 2 ^ 54 - 1 := by
    rw [Nat.shiftRight_eq_div_pow]
    omega
  unfold pte2pa clearFlag
  rw [Nat.shiftRight_and_distrib, hmask, Nat.and_two_pow_sub_one_eq_mod]
  simp only [Nat.shiftLeft_eq, Nat.shiftRight_eq_div_pow]
  omega

/-- The address `mappages` wrote. -/
theorem pte2pa_mapped {pa perm : Nat} (halign : pa % pgsize = 0)
    (hhi : pa < phystop) (hperm : perm < 1024) : pte2pa (pa2pte pa ||| perm ||| pteV) = pa := by
  rw [pte2pa_or _ (by decide), pte2pa_or _ hperm, pte2pa_pa2pte halign hhi]

/-- The flags `mappages` wrote. -/
theorem pteFlags_mapped {perm : Nat} (pa : Nat) (hperm : perm < 1024) :
    pteFlags (pa2pte pa ||| perm ||| pteV) = perm ||| pteV := by
  have hv : perm ||| pteV < 2 ^ 10 := Nat.or_lt_two_pow hperm (by decide)
  unfold pteFlags pa2pte
  rw [Nat.or_assoc, ← Nat.shiftLeft_add_eq_or_of_lt hv,
    show (0x3FF : Nat) = 2 ^ 10 - 1 from rfl, Nat.and_two_pow_sub_one_eq_mod, Nat.shiftLeft_eq]
  omega

end GemOS
