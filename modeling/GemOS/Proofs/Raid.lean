/-
The three RAID layouts (`raid0_map`, `raid1_map`, `raid5_map`) as maps
from C ints: what each accepts, where it puts a block, and what
`raid_reverse_map` makes of the place.

# What the bound misses

Only the computed block is checked, and only from above. C division
truncates toward zero, so negative numbers pass; RAID 1 takes a
remainder first, so every number passes; RAID 5 multiplies the stripe by
1024 before it compares with 4096, so everything from 12 on is refused
until the product leaves the range of an `int`.
-/
import Mathlib.Tactic.IntervalCases
import GemOS.Kernel.DiskSched

namespace GemOS

variable {b s : Int} {loc : Int × Int} {mode : RaidMode}

/-- A place that exists. -/
def OnDisk (loc : Int × Int) : Prop :=
  0 ≤ loc.1 ∧ loc.1 < numDisks ∧ 0 ≤ loc.2 ∧ loc.2 < diskBlocksPerDisk

-- ======== C arithmetic

theorem cInt_of_range {z : Int} (hlo : -2 ^ 31 ≤ z) (hhi : z < 2 ^ 31) : cInt z = z := by
  simp only [cInt, Int.bmod]
  split <;> omega

/-- Wrapping takes off a multiple of `2 ^ 32`. -/
theorem cInt_spec (z : Int) :
    ∃ k, cInt z = z - 2 ^ 32 * k ∧ -2 ^ 31 ≤ cInt z ∧ cInt z < 2 ^ 31 := by
  simp only [cInt, Int.bmod]
  split
  · exact ⟨z / 2 ^ 32, by omega, by omega, by omega⟩
  · exact ⟨z / 2 ^ 32 + 1, by omega, by omega, by omega⟩

-- ======== the maps on non-negative numbers

theorem raid0Map_nonneg (hb : 0 ≤ b) :
    raid0Map b = if b / 4 ≥ 4096 then none else some (b % 4, b / 4) := by
  simp only [raid0Map, numDisks, diskBlocksPerDisk]
  rw [Int.tdiv_eq_ediv_of_nonneg hb, Int.tmod_eq_emod_of_nonneg hb]

theorem raid0Map_eq (hb : 0 ≤ b) (hcap : b < numDisks * diskBlocksPerDisk) :
    raid0Map b = some (b % 4, b / 4) := by
  simp only [numDisks, diskBlocksPerDisk] at hcap
  rw [raid0Map_nonneg hb, if_neg (by omega)]

theorem raid1Map_eq (hb : 0 ≤ b) :
    raid1Map b = some (if b / 2048 % 2 = 0 then 0 else 2, b % 2048) := by
  simp only [raid1Map, diskBlocksPerDisk]
  rw [show Int.tdiv 4096 2 = 2048 from rfl, Int.tdiv_eq_ediv_of_nonneg hb,
    Int.tmod_eq_emod_of_nonneg hb,
    Int.tmod_eq_emod_of_nonneg (by omega : 0 ≤ b / 2048), if_neg (by omega)]

theorem raid5Map_nonneg (hb : 0 ≤ b) : raid5Map b = if cInt (b / 3 * 1024) ≥ 4096 then none
        else some (if b % 3 ≥ b / 3 % 4 then b % 3 + 1 else b % 3, cInt (b / 3 * 1024)) := by
  simp only [raid5Map, numDisks, diskBlocksPerDisk]
  rw [show (4 - 1 : Int) = 3 from rfl, show Int.tdiv 4096 4 = 1024 from rfl,
    Int.tdiv_eq_ediv_of_nonneg hb, Int.tmod_eq_emod_of_nonneg hb,
    Int.tmod_eq_emod_of_nonneg (by omega : 0 ≤ b / 3)]

theorem raid5Map_eq (hb : 0 ≤ b) (hint : b / 3 * 1024 < 2 ^ 31) : raid5Map b
      = if b / 3 * 1024 ≥ 4096 then none
        else some (if b % 3 ≥ b / 3 % 4 then b % 3 + 1 else b % 3, b / 3 * 1024) := by
  rw [raid5Map_nonneg hb, cInt_of_range (by omega) hint]

/-- From block 12 on the product is too large, as long as it is an
`int`. -/
theorem raid5Map_none (hb : 12 ≤ b) (hint : b / 3 * 1024 < 2 ^ 31) : raid5Map b = none := by
  rw [raid5Map_eq (by omega) hint, if_pos (by omega)]

-- ======== below the capacity of the swap space

/-- The block numbers that share a place with a smaller one. -/
def Folded (mode : RaidMode) (b : Int) : Prop := mode = .raid1 ∧ 4096 ≤ b

/-- Whatever is accepted has a place that exists. -/
theorem raid_onDisk (hb : 0 ≤ b) (hcap : b < numDisks * diskBlocksPerDisk)
    (h : raidMapLogicalToPhysical mode b = some loc) : OnDisk loc := by
  simp only [raidMapLogicalToPhysical] at h
  cases mode with
  | raid0 =>
    simp only [raid0Map_eq hb hcap] at h
    cases h
    simp only [OnDisk, numDisks, diskBlocksPerDisk] at hcap ⊢
    omega
  | raid1 =>
    simp only [raid1Map_eq hb] at h
    cases h
    simp only [OnDisk, numDisks, diskBlocksPerDisk]
    split <;> omega
  | raid5 =>
    simp only [numDisks, diskBlocksPerDisk] at hcap
    simp only [raid5Map_eq hb (by omega)] at h
    split at h
    · cases h
    cases h
    simp only [OnDisk, numDisks, diskBlocksPerDisk]
    split <;> omega

/-- The maps are injective on the numbers that are not folded. -/
theorem raid_injective {c : Int} (hb : 0 ≤ b)
    (hbcap : b < numDisks * diskBlocksPerDisk) (hc : 0 ≤ c)
    (hccap : c < numDisks * diskBlocksPerDisk) (hbf : ¬ Folded mode b)
    (hcf : ¬ Folded mode c) (hbl : raidMapLogicalToPhysical mode b = some loc)
    (hcl : raidMapLogicalToPhysical mode c = some loc) : b = c := by
  simp only [raidMapLogicalToPhysical] at hbl hcl
  cases mode with
  | raid0 =>
    simp only [raid0Map_eq hb hbcap, raid0Map_eq hc hccap] at hbl hcl
    have hsame := Option.some.inj (hbl.trans hcl.symm)
    obtain ⟨hdisk, hblock⟩ := Prod.mk.inj hsame
    omega
  | raid1 =>
    simp only [raid1Map_eq hb, raid1Map_eq hc] at hbl hcl
    have hsame := Option.some.inj (hbl.trans hcl.symm)
    obtain ⟨hdisk, hoff⟩ := Prod.mk.inj hsame
    simp only [Folded, true_and] at hbf hcf
    split at hdisk <;> split at hdisk <;> omega
  | raid5 =>
    simp only [numDisks, diskBlocksPerDisk] at hbcap hccap
    simp only [raid5Map_eq hb (by omega), raid5Map_eq hc (by omega),
      Option.ite_none_left_eq_some] at hbl hcl
    have hsame := Option.some.inj (hbl.2.trans hcl.2.symm)
    obtain ⟨hdisk, hblock⟩ := Prod.mk.inj hsame
    -- The same product is the same stripe, and so the same parity disk.
    have hstripe : b / 3 = c / 3 := by omega
    rw [hstripe] at hdisk
    split at hdisk <;> split at hdisk <;> omega

-- ======== reverse mapping

/-- The numbers that `raid_reverse_map` gives back: all that RAID 0
accepts, those that RAID 1 does not fold, and in RAID 5 those in front
of the parity disk of their stripe. -/
def Reversible (mode : RaidMode) (b : Int) : Prop :=
  match mode with
  | .raid0 => True
  | .raid1 => b < 4096
  | .raid5 => b < 12 ∧ b % 3 < b / 3

/-- The reverse of an accepted number is that number exactly for the
reversible ones. -/
theorem raidReverse_iff (mode : RaidMode) (b : Int) (hb : 0 ≤ b)
    (hint : b < 2 ^ 31) (disk block : Int)
    (h : raidMapLogicalToPhysical mode b = some (disk, block)) :
    raidReverseMap mode disk block = b ↔ Reversible mode b := by
  cases mode with
  | raid0 =>
    change raid0Map b = some (disk, block) at h
    rw [raid0Map_nonneg hb, Option.ite_none_left_eq_some] at h
    obtain ⟨hblock, h⟩ := h
    cases h
    simp only [raidReverseMap, Reversible, numDisks, iff_true]
    rw [cInt_of_range (z := b / 4 * 4) (by omega) (by omega), cInt_of_range (by omega) (by omega)]
    omega
  | raid1 =>
    change raid1Map b = some (disk, block) at h
    rw [raid1Map_eq hb] at h
    cases h
    simp only [raidReverseMap, Reversible, diskBlocksPerDisk]
    rw [show Int.tdiv 4096 2 = 2048 from rfl]
    split
    · rw [show cInt (Int.tdiv 0 2 * 2048) = 0 from rfl, cInt_of_range (by omega) (by omega)]
      omega
    · rw [show cInt (Int.tdiv 2 2 * 2048) = 2048 from rfl, cInt_of_range (by omega) (by omega)]
      omega
  | raid5 =>
    change raid5Map b = some (disk, block) at h
    rw [raid5Map_nonneg hb, Option.ite_none_left_eq_some] at h
    obtain ⟨hblock, h⟩ := h
    cases h
    simp only [raidReverseMap, Reversible, numDisks, diskBlocksPerDisk] at hblock ⊢
    rw [show Int.tdiv 4096 4 = 1024 from rfl, show (4 - 1 : Int) = 3 from rfl]
    obtain ⟨k, hk, hlo, hhi⟩ := cInt_spec (b / 3 * 1024)
    -- `2 ^ 32` is a multiple of 1024, so the wrapped product still is.
    have hdiv : (cInt (b / 3 * 1024)).tdiv 1024 = b / 3 - 2 ^ 22 * k := by
      rw [hk, show b / 3 * 1024 - 2 ^ 32 * k = (b / 3 - 2 ^ 22 * k) * 1024
        by omega, Int.mul_tdiv_cancel _ (by decide)]
    rw [hdiv, cInt_of_range (z := (b / 3 - 2 ^ 22 * k) * 3) (by omega) (by omega)]
    split
    · rw [cInt_of_range (by omega) (by omega)]
      omega
    · rw [cInt_of_range (by omega) (by omega)]
      omega

/-- Block 4 of RAID 5 is behind the parity disk of stripe 1, block 3 in
front of it. -/
theorem raidReverse_three : (raidReverseMap .raid5 0 1024 = 3 ↔ Reversible .raid5 3)
      ∧ (raidReverseMap .raid5 2 1024 = 4 ↔ Reversible .raid5 4) :=
  ⟨raidReverse_iff .raid5 3 (by decide) (by decide) 0 1024 (by decide),
    raidReverse_iff .raid5 4 (by decide) (by decide) 2 1024 (by decide)⟩

/-- The very first block in RAID 5 comes back as block 1, and in RAID 1
the first folded one as block 0. -/
theorem raidReverse_loses : raidMapLogicalToPhysical .raid5 0 = some (1, 0)
      ∧ raidReverseMap .raid5 1 0 = 1
      ∧ raidMapLogicalToPhysical .raid1 4096 = some (0, 0)
      ∧ raidReverseMap .raid1 0 0 = 0 := by
  decide

-- ======== capacity

/-- The number of logical blocks a mode is documented to have. -/
def raidCapacity : RaidMode → Int
  | .raid0 => 4 * diskBlocksPerDisk
  | .raid1 => 2 * diskBlocksPerDisk
  | .raid5 => 3 * diskBlocksPerDisk

/-- The map accepts a number if and only if it is below the capacity, and
then gives it a place that exists. -/
def CapacityKept (mode : RaidMode) (b : Int) : Prop :=
  ((raidMapLogicalToPhysical mode b).isSome ↔ 0 ≤ b ∧ b < raidCapacity mode)
    ∧ ∀ loc, raidMapLogicalToPhysical mode b = some loc → OnDisk loc

/-- The numbers for which a mode keeps its capacity: RAID 0 only accepts
too much below zero, RAID 1 accepts everything, and RAID 5 has twelve
blocks. Outside of its capacity RAID 5 refuses a number by the wrapped
product alone. -/
def RaidSized (mode : RaidMode) (b : Int) : Prop :=
  match mode with
  | .raid0 => 0 ≤ b
  | .raid1 => 0 ≤ b ∧ b < 8192
  | .raid5 => (0 ≤ b ∧ b < 12) ∨ ((b < 0 ∨ 12288 ≤ b) ∧ 4096 ≤ cInt (b.tdiv 3 * 1024))

theorem raid0_capacity : CapacityKept .raid0 b ↔ RaidSized .raid0 b := by
  simp only [CapacityKept, RaidSized, raidMapLogicalToPhysical, raidCapacity, diskBlocksPerDisk]
  by_cases hb : 0 ≤ b
  · rw [raid0Map_nonneg hb]
    simp only [hb, true_and, iff_true, OnDisk, numDisks, diskBlocksPerDisk]
    split
    · simp only [Option.isSome_none, Bool.false_eq_true, false_iff,
        reduceCtorEq, false_imp_iff, implies_true, and_true]
      omega
    · simp only [Option.isSome_some, true_iff, Option.some.injEq, forall_eq']
      omega
  · -- The quotient of a negative number is not positive, so it passes.
    have hle : 0 ≤ (-b).tdiv 4 := Int.tdiv_nonneg (by omega) (by decide)
    rw [Int.neg_tdiv] at hle
    simp only [raid0Map, numDisks, diskBlocksPerDisk]
    rw [if_neg (by omega)]
    simp [hb]

theorem raid1_capacity : CapacityKept .raid1 b ↔ RaidSized .raid1 b := by
  simp only [CapacityKept, RaidSized, raidMapLogicalToPhysical, raidCapacity, diskBlocksPerDisk]
  by_cases hb : 0 ≤ b
  · rw [raid1Map_eq hb]
    simp only [Option.isSome_some, true_iff, Option.some.injEq, forall_eq',
      OnDisk, numDisks, diskBlocksPerDisk]
    split <;> omega
  · have hlt : b.tmod 2048 < 2048 := Int.tmod_lt_of_pos _ (by decide)
    simp only [raid1Map, diskBlocksPerDisk, show Int.tdiv 4096 2 = 2048 from rfl]
    rw [if_neg (by omega)]
    simp [hb]

theorem raid5_capacity : CapacityKept .raid5 b ↔ RaidSized .raid5 b := by
  simp only [CapacityKept, RaidSized, raidMapLogicalToPhysical, raidCapacity, diskBlocksPerDisk]
  by_cases hin : 0 ≤ b ∧ b < 12288
  · rw [raid5Map_eq hin.1 (by omega)]
    split
    · simp only [Option.isSome_none, Bool.false_eq_true, false_iff]
      omega
    · simp only [Option.isSome_some, true_iff, Option.some.injEq,
        forall_eq', OnDisk, numDisks, diskBlocksPerDisk]
      split <;> omega
  · -- Outside, both sides say that the number is refused.
    simp only [raid5Map, numDisks, diskBlocksPerDisk,
      show Int.tdiv 4096 4 = 1024 from rfl, show (4 - 1 : Int) = 3 from rfl]
    split
    · simp only [Option.isSome_none, Bool.false_eq_true, false_iff,
        reduceCtorEq, false_imp_iff, implies_true, and_true]
      omega
    · simp only [Option.isSome_some, true_iff]
      omega

/-- Each mode keeps its capacity exactly on the numbers it is sized
for. -/
theorem raidCapacity_iff (mode : RaidMode) (b : Int) : CapacityKept mode b ↔ RaidSized mode b := by
  cases mode with
  | raid0 => exact raid0_capacity
  | raid1 => exact raid1_capacity
  | raid5 => exact raid5_capacity

/-- Block -1 is accepted in every mode, and without a place on a disk in
RAID 0 and RAID 5; RAID 1 accepts block 8192, RAID 5 refuses block 12. -/
theorem raidCapacity_missed : raidMapLogicalToPhysical .raid0 (-1) = some (-1, 0)
      ∧ raidMapLogicalToPhysical .raid1 (-1) = some (0, -1)
      ∧ raidMapLogicalToPhysical .raid1 8192 = some (0, 0)
      ∧ raidMapLogicalToPhysical .raid5 (-1) = some (-1, 0)
      ∧ raidMapLogicalToPhysical .raid5 12 = none := by
  decide

-- ======== the rotation of RAID 5

/-- The `parity_disk` of `raid5_map`. -/
def raid5ParityDisk (logicalBlock : Int) : Int :=
  (logicalBlock.tdiv (numDisks - 1)).tmod numDisks

/-- The three blocks of stripe `s` are mapped to one block number and, from
below, to the disks other than its parity disk. -/
def StripeMapped (s : Int) : Prop :=
  ∃ block, ([0, 1, 2].map fun i => raid5Map (3 * s + i))
    = ([0, 1, 2, 3].filter fun d => d ≠ s % numDisks).map fun d => some (d, block)

/-- Disk `d` is the parity disk of exactly one of the four stripes from
`s` on and receives exactly three of their twelve blocks. -/
def Rotates (s d : Int) : Prop :=
  [0, 1, 2, 3].countP (fun i => raid5ParityDisk (3 * (s + i)) = d) = 1
    ∧ (List.range 12).countP (fun j : Nat => (raid5Map (3 * s + j)).map Prod.fst = some d) = 3

theorem stripeMapped_iff (hs : 0 ≤ s) (hint : s * 1024 < 2 ^ 31) : StripeMapped s ↔ s ≤ 3 := by
  constructor
  · rintro ⟨block, h⟩
    by_contra hlarge
    have hnone : raid5Map (3 * s + 0) = none := raid5Map_none (by omega) (by omega)
    have hcases : s % 4 = 0 ∨ s % 4 = 1 ∨ s % 4 = 2 ∨ s % 4 = 3 := by omega
    simp only [numDisks, List.map_cons, hnone] at h
    rcases hcases with hmod | hmod | hmod | hmod <;> simp [hmod] at h
  · intro h3
    refine ⟨s * 1024, ?_⟩
    interval_cases s <;> decide

/-- With a stripe from 4 on among the four, some disk gets too few
blocks. -/
theorem rotates_iff (hs : 0 ≤ s) (hint : (s + 3) * 1024 < 2 ^ 31) :
    (∀ d, 0 ≤ d → d < numDisks → Rotates s d) ↔ s = 0 := by
  constructor
  · intro h
    by_contra hpos
    by_cases hsmall : s ≤ 3
    · interval_cases s
      · exact hpos rfl
      · exact absurd (h 1 (by decide) (by decide)).2 (by decide)
      · exact absurd (h 0 (by decide) (by decide)).2 (by decide)
      · exact absurd (h 0 (by decide) (by decide)).2 (by decide)
    · have hcount := (h 0 (by decide) (by decide)).2
      rw [List.countP_eq_zero.mpr] at hcount
      · omega
      · intro j hj
        have hj12 : j < 12 := List.mem_range.mp hj
        rw [raid5Map_none (by omega) (by omega)]
        decide
  · rintro rfl d h0 h4
    simp only [numDisks] at h4
    unfold Rotates
    interval_cases d <;> decide

/-- A stripe whose product is an `int` is laid out as documented exactly
if it is one of the first four, and four stripes in a row go around all
disks exactly if they are these. -/
theorem raid5_layout_iff (s : Int) (hs : 0 ≤ s) (hint : s * 1024 < 2 ^ 31) :
    (StripeMapped s ↔ s ≤ 3)
      ∧ ((s + 3) * 1024 < 2 ^ 31 → ((∀ d, 0 ≤ d → d < numDisks → Rotates s d) ↔ s = 0)) :=
  ⟨stripeMapped_iff hs hint, rotates_iff hs⟩

/-- Stripe 1 has its parity on disk 1, and the four stripes from 1 on
include one that is refused. -/
theorem raid5_layout_one : StripeMapped 1 ∧ ¬ ∀ d, 0 ≤ d → d < numDisks → Rotates 1 d :=
  have h := raid5_layout_iff 1 (by decide) (by decide)
  ⟨h.1.mpr (by decide), fun hall => absurd ((h.2 (by decide)).mp hall) (by decide)⟩

/-- Stripe 4 is not mapped: block 12, its first, is refused, so that disk 1
gets two blocks of the stripes 1 to 4. -/
theorem raid5_refuses_stripe : raid5Map 12 = none ∧ ¬ StripeMapped 4 ∧ ¬ Rotates 1 1 := by
  refine ⟨by decide, ?_, fun h => absurd h.2 (by decide)⟩
  rw [stripeMapped_iff (by decide) (by decide)]
  decide

end GemOS
