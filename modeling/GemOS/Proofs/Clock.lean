/-
The clock scan of `evict_page`: it ends whenever there is something to
evict, and what it picks.

# Rounds and turns

Round `k` of the scan looks at the frame `k` places after the hand. A
frame whose reference bit is clear is a candidate the first time it is
looked at; a referenced one loses its bit then and is a candidate one
sweep later. `turn` is that round. The scan checks for its exit when the
hand comes back to `start_index`, which a concurrent scan may have read
at another position of the hand; `sweep` counts how often it has.

# The choice

The victim is the evictable frame of least `clockKey`: the earliest
sweep, then the highest level number, then the earliest turn. `ScanInv`
is the invariant of the loop: the victim so far is the best among the
frames whose turn has come, and all of these are in the current sweep.
-/
import Mathlib.Data.Prod.Lex
import Mathlib.Order.Lattice
import GemOS.Kernel.Memsys

namespace GemOS

open Function Prog

-- ======== arithmetic

/-- How far frame `i` is ahead of the hand. -/
def distance (hand : Fin maxFrames) (i : Nat) : Nat :=
  (i + maxFrames - hand.val) % maxFrames

/-- Rounds until the hand is first back at `start`. -/
def span (hand start : Fin maxFrames) : Nat :=
  if start = hand then maxFrames else distance hand start

/-- How often the hand has come back to `start` after `k` rounds. -/
def sweep (hand start : Fin maxFrames) (k : Nat) : Nat :=
  (k + (maxFrames - span hand start)) / maxFrames

variable {hand start : Fin maxFrames} {i j k : Nat}

theorem span_bounds (hand start : Fin maxFrames) :
    0 < span hand start ∧ span hand start ≤ maxFrames := by
  have hh := hand.isLt
  have hs := start.isLt
  unfold span distance
  split
  · exact ⟨by decide, le_rfl⟩
  · grind [Fin.ext]

theorem distance_lt (hand : Fin maxFrames) (i : Nat) :
    distance hand i < maxFrames := Nat.mod_lt _ (by decide)

theorem distance_round (hand : Fin maxFrames) (k : Nat) :
    distance hand ((hand.val + k) % maxFrames) = k % maxFrames := by
  have hh := hand.isLt
  unfold distance
  simp only [maxFrames] at *
  omega

theorem distance_inj (hand : Fin maxFrames) (hi : i < maxFrames) (hj : j < maxFrames)
    (h : distance hand i = distance hand j) : i = j := by
  have hh := hand.isLt
  unfold distance at h
  simp only [maxFrames] at *
  omega

theorem sweep_mono (hand start : Fin maxFrames) (h : j ≤ k) :
    sweep hand start j ≤ sweep hand start k :=
  Nat.div_le_div_right (Nat.add_le_add_right h _)

theorem sweep_lt (h : j + maxFrames ≤ k) : sweep hand start j < sweep hand start k := by
  unfold sweep
  simp only [maxFrames] at *
  omega

/-- The exit test of the loop sees exactly the ends of sweeps. -/
theorem sweep_succ (hand start : Fin maxFrames) (k : Nat) : sweep hand start (k + 1)
      = if (hand.val + (k + 1)) % maxFrames = start.val then
          sweep hand start k + 1
        else sweep hand start k := by
  have hh := hand.isLt
  have hs := start.isLt
  have hspan := span_bounds hand start
  have hval : (hand.val + span hand start) % maxFrames = start.val := by
    unfold span
    split
    · grind
    · grind [distance]
  unfold sweep
  generalize span hand start = d at *
  split <;> simp only [maxFrames] at * <;> omega

-- ======== turns

/-- The round in which a frame first is a candidate. -/
def turn (table : Nat → FrameEntry) (hand : Fin maxFrames) (i : Nat) : Nat :=
  if (table i).refBit then maxFrames + distance hand i else distance hand i

/-- The order in which the scan prefers frames: sweep, level (the
largest number first), turn. -/
def clockKey (level : ProcId → Fin mlfqLevels) (table : Nat → FrameEntry)
    (hand start : Fin maxFrames) (i : Nat) : Nat ×ₗ (Nat ×ₗ Nat) :=
  toLex (sweep hand start (turn table hand i), toLex (match (table i).evictable with
      | some p => mlfqLevels - 1 - (level p).val
      | none => mlfqLevels, turn table hand i))

/-- The frame the scan is after: evictable, and preferred to every other
evictable frame. -/
structure ClockChoice (level : ProcId → Fin mlfqLevels)
    (table : Nat → FrameEntry) (hand start : Fin maxFrames) (v : Nat) :
    Prop where
  bound : v < maxFrames
  evictable : (table v).evictable.isSome
  least : ∀ i < maxFrames, i ≠ v → (table i).evictable.isSome →
    clockKey level table hand start v < clockKey level table hand start i

/-- An entry once the hand has passed it. -/
def FrameEntry.passed (e : FrameEntry) : FrameEntry :=
  if e.evictable.isSome then { e with refBit := false } else e

@[simp] theorem passed_evictable (e : FrameEntry) : e.passed.evictable = e.evictable := by
  unfold FrameEntry.passed
  split <;> rfl

/-- The loop has made `k` rounds and is in sweep `m`. -/
structure ScanInv (level : ProcId → Fin mlfqLevels)
    (table : Nat → FrameEntry) (hand start : Fin maxFrames) (m k : Nat)
    (c : Clock) : Prop where
  position : c.hand.val = (hand.val + k) % maxFrames
  passed : ∀ i < maxFrames, c.table i = if distance hand i < k then (table i).passed else table i
  unfound : c.victim = none → c.lowest = -1
    ∧ ∀ i < maxFrames, (table i).evictable.isSome → k ≤ turn table hand i
  found : ∀ v, c.victim = some v → v < maxFrames ∧ ∃ p,
    (table v).evictable = some p ∧ c.lowest = ((level p).val : Int)
    ∧ turn table hand v < k
    ∧ ∀ i < maxFrames, ∀ q, (table i).evictable = some q → turn table hand i < k →
      sweep hand start (turn table hand i) = m
      ∧ ((level q).val < (level p).val ∨ (level q).val = (level p).val
          ∧ turn table hand v ≤ turn table hand i)

-- ======== one round

section round

variable {level : ProcId → Fin mlfqLevels} {table : Nat → FrameEntry} {m : Nat} {c : Clock}

theorem turn_mod (table : Nat → FrameEntry) (hand : Fin maxFrames)
    (i : Nat) : turn table hand i % maxFrames = distance hand i := by
  have hd := distance_lt hand i
  unfold turn
  split
  · rw [Nat.add_mod_left, Nat.mod_eq_of_lt hd]
  · exact Nat.mod_eq_of_lt hd

theorem turn_inj (hi : i < maxFrames) (hj : j < maxFrames)
    (h : turn table hand i = turn table hand j) : i = j := by
  refine distance_inj hand hi hj ?_
  rw [← turn_mod table, ← turn_mod table, h]

theorem turn_lt (table : Nat → FrameEntry) (hand : Fin maxFrames)
    (i : Nat) : turn table hand i < 2 * maxFrames := by
  have hd := distance_lt hand i
  unfold turn
  split <;> omega

theorem visit_cases (level : ProcId → Fin mlfqLevels) (c : Clock) :
    ((c.table c.hand).evictable = none ∧ c.visit level = c)
    ∨ ∃ p, (c.table c.hand).evictable = some p ∧ (((c.table c.hand).refBit = true ∧ c.visit level
          = { c with
              table := update c.table c.hand { c.table c.hand with refBit := false } })
      ∨ (c.table c.hand).refBit = false ∧
        (((c.lowest = -1 ∨ ((level p).val : Int) > c.lowest) ∧ c.visit level
            = { c with victim := some c.hand.val, lowest := (level p).val })
        ∨ (¬ (c.lowest = -1 ∨ ((level p).val : Int) > c.lowest) ∧ c.visit level = c))) := by
  unfold Clock.visit
  cases he : (c.table c.hand).evictable with
  | none => exact .inl ⟨rfl, by simp only [he]⟩
  | some p => grind

section

variable (h : ScanInv level table hand start m k c)

include h

theorem ScanInv.distance_hand : distance hand c.hand = k % maxFrames := by
  rw [h.position]
  exact distance_round hand k

/-- The entry under the hand: passed before exactly in later sweeps. -/
theorem ScanInv.entry : c.table c.hand
      = if maxFrames ≤ k then (table c.hand).passed else table c.hand := by
  rw [h.passed _ c.hand.isLt, h.distance_hand]
  refine if_congr ?_ rfl rfl
  simp only [maxFrames]
  omega

@[simp] theorem ScanInv.entry_evictable :
    (c.table c.hand).evictable = (table c.hand).evictable := by
  rw [h.entry]
  split
  · exact passed_evictable _
  · rfl

/-- Whose turn has come by the end of the round. -/
theorem ScanInv.turn_cases (hi : i < maxFrames) (ht : turn table hand i < k + 1) :
    turn table hand i < k ∨ i = c.hand.val := by
  rcases Nat.lt_succ_iff_lt_or_eq.mp ht with hlt | heq
  · exact .inl hlt
  · refine .inr (distance_inj hand hi c.hand.isLt ?_)
    rw [h.distance_hand, ← turn_mod table, heq]

/-- After the round the entry under the hand has been passed, and no
other has changed. -/
theorem ScanInv.passed_visit (hi : i < maxFrames) :
    (c.visit level).table i = if distance hand i < k + 1 then (table i).passed else table i := by
  by_cases hic : i = c.hand.val
  · have hle : distance hand i < k + 1 := by
      rw [hic, h.distance_hand]
      exact Nat.lt_succ_of_le (Nat.mod_le ..)
    have hev := h.entry_evictable
    have hentry := h.entry
    rw [if_pos hle, hic]
    rcases visit_cases level c with ⟨hn, hv⟩ | ⟨p, hp, ⟨hr, hv⟩ | ⟨hr, hv⟩⟩
    · rw [hv, hentry]
      rw [hn] at hev
      split
      · rfl
      · simp [FrameEntry.passed, ← hev]
    · rw [hv]
      rw [hp] at hev
      simp only [update_self]
      rw [hentry]
      split <;> simp [FrameEntry.passed, ← hev]
    · have hv' : (c.visit level).table = c.table := by
        rcases hv with ⟨-, hv⟩ | ⟨-, hv⟩ <;> rw [hv]
      rw [hv', hentry]
      rw [hentry] at hr
      rw [hp] at hev
      split
      · rfl
      · rename_i hk
        rw [if_neg hk] at hr
        simp [FrameEntry.passed, ← hev, ← hr]
  · have hdist : distance hand i ≠ k % maxFrames := by
      rw [← h.distance_hand]
      exact fun hd => hic (distance_inj hand hi c.hand.isLt hd)
    have htab : (c.visit level).table i = c.table i := by
      rcases visit_cases level c with
        ⟨-, hv⟩ | ⟨p, -, ⟨-, hv⟩ | ⟨-, ⟨-, hv⟩ | ⟨-, hv⟩⟩⟩ <;> rw [hv]
      exact update_of_ne hic _ _
    rw [htab, h.passed i hi]
    refine if_congr ?_ rfl rfl
    have hlt := distance_lt hand i
    simp only [maxFrames] at *
    omega

/-- A round in which no candidate beats the victim. -/
theorem ScanInv.keep
    (hnone : c.victim = none → (table c.hand).evictable.isSome → k + 1 ≤ turn table hand c.hand)
    (hsome : ∀ v p q, c.victim = some v → (table v).evictable = some p →
      (table c.hand).evictable = some q → turn table hand c.hand < k + 1 →
      sweep hand start (turn table hand c.hand) = m
      ∧ ((level q).val < (level p).val ∨ (level q).val = (level p).val
          ∧ turn table hand v ≤ turn table hand c.hand))
    (htab : (c.visit level).victim = c.victim)
    (hlow : (c.visit level).lowest = c.lowest)
    (hhand : (c.visit level).hand = c.hand) :
    ScanInv level table hand start m (k + 1) (c.visit level).advance := by
  refine ⟨?_, fun i hi => h.passed_visit hi, ?_, ?_⟩
  · show ((c.visit level).hand.val + 1) % maxFrames = _
    rw [hhand, h.position]
    simp only [maxFrames]
    omega
  · intro hv
    have hv' : c.victim = none := htab.symm.trans hv
    obtain ⟨hl, hall⟩ := h.unfound hv'
    refine ⟨hlow.trans hl, fun i hi he => ?_⟩
    by_contra hcon
    rcases h.turn_cases hi (Nat.lt_of_not_le hcon) with hlt | rfl
    · exact absurd (hall i hi he) (Nat.not_le.mpr hlt)
    · exact hcon (hnone hv' he)
  · intro v hv
    have hv' : c.victim = some v := htab.symm.trans hv
    obtain ⟨hvn, p, hp, hl, htv, hall⟩ := h.found v hv'
    refine ⟨hvn, p, hp, hlow.trans hl, Nat.lt_succ_of_lt htv, ?_⟩
    intro i hi q hq ht
    rcases h.turn_cases hi ht with hlt | rfl
    · exact hall i hi q hq hlt
    · exact hsome v p q hv' hp hq ht

end

variable (h : ScanInv level table hand start (sweep hand start k) k c)

include h

/-- Nothing whose turn is over is looked at again with a clear bit: a
victim found that early would have ended the scan. -/
theorem ScanInv.turn_hand {p : ProcId}
    (hp : (table c.hand).evictable = some p) (href : (c.table c.hand).refBit = false) :
    turn table hand c.hand = k := by
  have hdist := h.distance_hand
  by_contra hne
  have hearly : turn table hand c.hand + maxFrames ≤ k := by
    rw [h.entry] at href
    unfold turn at hne ⊢
    rw [hdist] at hne ⊢
    split at href
    · grind
    · grind
  cases hv : c.victim with
  | none =>
    have := (h.unfound hv).2 _ c.hand.isLt (by rw [hp]; rfl)
    simp only [maxFrames] at *
    omega
  | some v =>
    obtain ⟨-, p', -, -, -, hall⟩ := h.found v hv
    have hlt : turn table hand c.hand < k := by
      simp only [maxFrames] at *
      omega
    have hsame := (hall _ c.hand.isLt p hp hlt).1
    exact absurd hsame (Nat.ne_of_lt (sweep_lt hearly))

/-- A round in which the frame under the hand takes over. -/
theorem ScanInv.takeOver {p : ProcId}
    (hp : (table c.hand).evictable = some p) (hturn : turn table hand c.hand = k)
    (hl : c.lowest = -1 ∨ ((level p).val : Int) > c.lowest)
    (hv : c.visit level = { c with victim := some c.hand.val, lowest := (level p).val }) :
    ScanInv level table hand start (sweep hand start k) (k + 1) (c.visit level).advance := by
  refine ⟨?_, fun i hi => h.passed_visit hi, ?_, ?_⟩
  · show ((c.visit level).hand.val + 1) % maxFrames = _
    rw [hv, h.position]
    simp only [maxFrames]
    omega
  · intro hn
    have : (c.visit level).victim = none := hn
    rw [hv] at this
    cases this
  · intro v hvv
    have hvv' : (c.visit level).victim = some v := hvv
    rw [hv] at hvv'
    cases hvv'
    have hlow : (c.visit level).lowest = ((level p).val : Int) := by rw [hv]
    refine ⟨c.hand.isLt, p, hp, hlow, by omega, ?_⟩
    intro i hi q hq ht
    rcases h.turn_cases hi ht with hlt | rfl
    · -- an earlier candidate: it lost to the old victim, which loses now
      cases hvic : c.victim with
      | none =>
        have := (h.unfound hvic).2 i hi (by rw [hq]; rfl)
        omega
      | some w =>
        obtain ⟨-, p', -, hl', -, hall⟩ := h.found w hvic
        obtain ⟨hs, hlev⟩ := hall i hi q hq hlt
        exact ⟨hs, .inl (by omega)⟩
    · grind

/-- One round keeps the invariant, up to the check for the end of the
sweep. -/
theorem ScanInv.visit :
    ScanInv level table hand start (sweep hand start k) (k + 1) (c.visit level).advance := by
  have hev := h.entry_evictable
  rcases visit_cases level c with
    ⟨hn, hv⟩ | ⟨p, hp, ⟨hr, hv⟩ | ⟨hr, ⟨hl, hv⟩ | ⟨hl, hv⟩⟩⟩
  · grind [h.keep]
  · -- referenced: its turn is a sweep away
    have hk : k + 1 ≤ turn table hand c.hand := by
      have hentry := h.entry
      have hd := h.distance_hand
      have hnot : ¬ maxFrames ≤ k := by
        intro hk
        rw [if_pos hk] at hentry
        rw [hentry] at hr
        rw [hp] at hev
        simp [FrameEntry.passed, ← hev] at hr
      rw [if_neg hnot] at hentry
      rw [hentry] at hr
      unfold turn
      rw [if_pos hr, hd]
      simp only [maxFrames] at *
      omega
    refine h.keep (fun _ _ => hk) ?_ (by rw [hv]) (by rw [hv]) (by rw [hv])
    intro v p q _ _ _ hlt
    omega
  · rw [hp] at hev
    exact h.takeOver hev.symm (h.turn_hand hev.symm hr) hl hv
  · rw [hp] at hev
    have hturn := h.turn_hand hev.symm hr
    refine h.keep ?_ ?_ (by rw [hv]) (by rw [hv]) (by rw [hv])
    · intro hvic _
      exact absurd (.inl (h.unfound hvic).1) hl
    · intro v p' q hvic hp' hq _
      rw [← hev] at hq
      cases hq
      obtain ⟨-, p'', hp'', hlow, htv, -⟩ := h.found v hvic
      rw [hp'] at hp''
      cases hp''
      rw [hturn]
      refine ⟨rfl, ?_⟩
      rw [not_or] at hl
      omega

end round

-- ======== the scan

section scan

variable {level : ProcId → Fin mlfqLevels} {table : Nat → FrameEntry} {m : Nat} {c : Clock}

theorem ClockChoice.of_better {v : Nat} {p : ProcId} (hv : v < maxFrames)
    (hp : (table v).evictable = some p)
    (hbest : ∀ i < maxFrames, i ≠ v → ∀ q, (table i).evictable = some q →
      sweep hand start (turn table hand v) < sweep hand start (turn table hand i)
      ∨ sweep hand start (turn table hand v) = sweep hand start (turn table hand i)
        ∧ ((level q).val < (level p).val ∨ (level q).val = (level p).val
            ∧ turn table hand v < turn table hand i)) :
    ClockChoice level table hand start v := by
  refine ⟨hv, by rw [hp]; rfl, fun i hi hiv he => ?_⟩
  obtain ⟨q, hq⟩ := Option.isSome_iff_exists.mp he
  have hlp := (level p).isLt
  have hlq := (level q).isLt
  unfold clockKey
  rw [Prod.Lex.toLex_lt_toLex, hp, hq]
  rcases hbest i hi hiv q hq with hlt | ⟨heq, hlev⟩
  · exact .inl hlt
  · grind [Prod.Lex.toLex_lt_toLex]

theorem settles_cases (hs : c.settles level = true) : ∃ p, (c.table c.hand).evictable = some p
      ∧ (c.table c.hand).refBit = false
      ∧ (c.lowest = -1 ∨ ((level p).val : Int) > c.lowest)
      ∧ (level p).val = mlfqLevels - 1
      ∧ c.visit level = { c with victim := some c.hand.val, lowest := (level p).val } := by
  unfold Clock.settles at hs
  rcases visit_cases level c with
    ⟨hn, hv⟩ | ⟨p, hp, ⟨hr, hv⟩ | ⟨hr, ⟨hl, hv⟩ | ⟨hl, hv⟩⟩⟩
  · simp [hn] at hs
  · simp [hp, hr] at hs
  · simp only [hp, hr, Bool.and_eq_true, beq_iff_eq] at hs
    exact ⟨p, hp, hr, hl, hs.2, hv⟩
  · grind

/-- Stopping at once on a frame of the lowest level. -/
theorem ScanInv.settle (h : ScanInv level table hand start (sweep hand start k) k c)
    (hs : c.settles level = true) :
    (c.visit level).victim = some c.hand.val ∧ turn table hand c.hand = k
      ∧ (∀ p, (table c.hand).evictable = some p → (level p).val = mlfqLevels - 1)
      ∧ ClockChoice level table hand start c.hand := by
  obtain ⟨p, hp, hr, hl, hlev, hv⟩ := settles_cases hs
  have hev := h.entry_evictable
  rw [hp] at hev
  have hturn := h.turn_hand hev.symm hr
  have hlowest : ∀ q, (table c.hand).evictable = some q → (level q).val = mlfqLevels - 1 := by
    intro q hq
    obtain rfl : p = q := Option.some.inj (hev.trans hq)
    exact hlev
  refine ⟨by rw [hv], hturn, hlowest, .of_better c.hand.isLt hev.symm ?_⟩
  intro i hi hne q hq
  rw [hturn]
  rcases Nat.lt_trichotomy (turn table hand i) k with hlt | heq | hgt
  · cases hvic : c.victim with
    | none =>
      have := (h.unfound hvic).2 i hi (by rw [hq]; rfl)
      omega
    | some w =>
      obtain ⟨-, p', -, hlow, -, hall⟩ := h.found w hvic
      obtain ⟨hsw, hlq⟩ := hall i hi q hq hlt
      exact .inr ⟨hsw.symm, .inl (by omega)⟩
  · exact absurd (turn_inj hi c.hand.isLt (heq.trans hturn.symm)) hne
  · have hle := sweep_mono hand start hgt.le
    have hq3 := (level q).isLt
    rcases Nat.lt_or_eq_of_le hle with hlt | heq
    · exact .inl hlt
    · exact .inr ⟨heq, by simp only [mlfqLevels] at *; omega⟩

/-- Stopping at the end of a sweep. -/
theorem ScanInv.finish {v : Nat} (h : ScanInv level table hand start m k c) (hv : c.victim = some v)
    (hend : sweep hand start k = m + 1) :
    ClockChoice level table hand start v := by
  obtain ⟨hvn, p, hp, -, htv, hall⟩ := h.found v hv
  obtain ⟨hsv, -⟩ := hall v hvn p hp htv
  refine .of_better hvn hp fun i hi hne q hq => ?_
  rcases Nat.lt_or_ge (turn table hand i) k with hlt | hge
  · grind [turn_inj]
  · have hmono := sweep_mono hand start hge
    exact .inl (by omega)

/-- What a scan that began at `hand` has done when its hand has moved on
by `k` frames: it has passed these, and changed nothing else. -/
structure Swept (table : Nat → FrameEntry) (hand : Fin maxFrames) (k : Nat) (c : Clock) : Prop where
  position : c.hand.val = (hand.val + k) % maxFrames
  passed : ∀ i < maxFrames, c.table i = if distance hand i < k then (table i).passed else table i

theorem ScanInv.swept (h : ScanInv level table hand start m k c) :
    Swept table hand k c := ⟨h.position, h.passed⟩

/-- The visit on which the scan settles changes the victim only. -/
theorem Swept.settle (h : Swept table hand k c) (hs : c.settles level = true) :
    Swept table hand k (c.visit level) := by
  obtain ⟨p, -, -, -, -, hv⟩ := settles_cases hs
  rw [hv]
  exact ⟨h.position, h.passed⟩

/-- When the scan stops on frame `v`: on a frame of the lowest level in its
turn, with the hand on it, and otherwise at the end of the sweep its turn
is in. -/
def ScanStops (level : ProcId → Fin mlfqLevels) (table : Nat → FrameEntry)
    (hand start : Fin maxFrames) (v k : Nat) : Prop :=
  ∀ p, (table v).evictable = some p →
    if (level p).val = mlfqLevels - 1 then k = turn table hand v
    else (hand.val + k) % maxFrames = start.val
      ∧ sweep hand start k = sweep hand start (turn table hand v) + 1

/-- The victim so far is not of the lowest level if the scan goes on. -/
theorem visit_lowest (hs : ¬ c.settles level = true) (hl : c.lowest < mlfqLevels - 1) :
    (c.visit level).lowest < mlfqLevels - 1 := by
  rcases visit_cases level c with
    ⟨-, hv⟩ | ⟨p, hp, ⟨-, hv⟩ | ⟨hr, ⟨htake, hv⟩ | ⟨-, hv⟩⟩⟩
  · rw [hv]
    exact hl
  · rw [hv]
    exact hl
  · have hlev : (level p).val ≠ mlfqLevels - 1 := by
      intro heq
      refine hs ?_
      rw [heq] at htake
      simp only [Clock.settles, hp, hr, heq]
      simpa using htake
    have hlt := (level p).isLt
    rw [hv]
    simp only [mlfqLevels] at *
    omega
  · rw [hv]
    exact hl

/-- The loop from round `k` on, with fuel up to round `n`: enough when
every turn comes in an earlier sweep than round `n`. -/
theorem clockLoop_spec {n : Nat} (hex : ∃ i < maxFrames, (table i).evictable.isSome)
    (hn : 2 * maxFrames ≤ n)
    (hlast : ∀ j < 2 * maxFrames, sweep hand start j < sweep hand start n) :
    ∀ (fuel k : Nat) (c : Clock), k + fuel = n → c.lowest < mlfqLevels - 1 →
      ScanInv level table hand start (sweep hand start k) k c →
      ∃ c' v k', clockLoop level start fuel c = some c' ∧ c'.victim = some v
        ∧ ClockChoice level table hand start v ∧ Swept table hand k' c'
        ∧ ScanStops level table hand start v k' := by
  intro fuel
  induction fuel with
  | zero =>
    intro k c hk _ h
    exfalso
    obtain rfl : k = n := hk
    cases hvic : c.victim with
    | none =>
      obtain ⟨i, hi, he⟩ := hex
      have := (h.unfound hvic).2 i hi he
      have := turn_lt table hand i
      omega
    | some v =>
      obtain ⟨hvn, p, hp, -, htv, hall⟩ := h.found v hvic
      have hsame := (hall v hvn p hp htv).1
      have hbefore := hlast _ (turn_lt table hand v)
      exact absurd hsame (Nat.ne_of_lt hbefore)
  | succ fuel ih =>
    intro k c hk hlow h
    unfold clockLoop
    by_cases hs : c.settles level = true
    · rw [if_pos hs]
      obtain ⟨hv, hturn, hlev, hchoice⟩ := h.settle hs
      refine ⟨_, _, k, rfl, hv, hchoice, h.swept.settle hs, fun p hp => ?_⟩
      rw [if_pos (hlev p hp), hturn]
    · rw [if_neg hs]
      have hlow' := visit_lowest hs hlow
      have hnext := h.visit
      have hpos := hnext.position
      have hsw := sweep_succ hand start k
      dsimp only
      by_cases hexit : (c.visit level).advance.hand = start ∧ (c.visit level).advance.victim.isSome
      · rw [if_pos hexit]
        obtain ⟨v, hv⟩ := Option.isSome_iff_exists.mp hexit.2
        have hback : (hand.val + (k + 1)) % maxFrames = start.val := by rw [← hpos, hexit.1]
        rw [if_pos hback] at hsw
        refine ⟨_, v, k + 1, rfl, hv, hnext.finish hv hsw, hnext.swept, fun p hp => ?_⟩
        obtain ⟨hvn, p', hp', hl', htv, hall⟩ := hnext.found v hv
        obtain rfl : p' = p := Option.some.inj (hp'.symm.trans hp)
        have hsame := (hall v hvn p' hp htv).1
        have hl : ((level p').val : Int) < mlfqLevels - 1 := hl' ▸ hlow'
        have hlev : (level p').val ≠ mlfqLevels - 1 := by
          simp only [mlfqLevels] at *
          omega
        rw [if_neg hlev, hsw, hsame]
        exact ⟨hback, rfl⟩
      · rw [if_neg hexit]
        refine ih (k + 1) _ (by omega) hlow' ?_
        -- no victim yet, or the sweep goes on
        by_cases hb : (hand.val + (k + 1)) % maxFrames = start.val
        · have hnov : (c.visit level).advance.victim = none := by
            by_contra hv
            refine hexit ⟨Fin.ext (hpos.trans hb), ?_⟩
            exact Option.isSome_iff_ne_none.mpr hv
          exact ⟨hpos, hnext.passed, hnext.unfound, fun v hv => by
            rw [hnov] at hv; cases hv⟩
        · rw [if_neg hb] at hsw
          rw [hsw]
          exact hnext

/-- The clock as `evict_page` finds it. -/
def Kernel.clock (s : Kernel) : Clock :=
  { table := s.frameTable, hand := s.clockHand, victim := none, lowest := -1 }

theorem Kernel.clock_lowest (s : Kernel) : s.clock.lowest < mlfqLevels - 1 :=
  show (-1 : Int) < mlfqLevels - 1 by decide

theorem Kernel.clock_inv (s : Kernel) (start : Fin maxFrames) :
    ScanInv level s.frameTable s.clockHand start (sweep s.clockHand start 0) 0 s.clock := by
  refine ⟨?_, fun i _ => ?_, ?_, fun v hv => nomatch hv⟩
  · show s.clockHand.val = (s.clockHand.val + 0) % maxFrames
    rw [Nat.add_zero, Nat.mod_eq_of_lt s.clockHand.isLt]
  · rw [if_neg (Nat.not_lt_zero _)]
    rfl
  · exact fun _ => ⟨rfl, fun _ _ _ => Nat.zero_le _⟩

/-- The scan ends whenever there is something to evict, on the frame
the clock prefers. -/
theorem clockScan_choice (s : Kernel) (start : Fin maxFrames)
    (hex : ∃ i < maxFrames, (s.frameTable i).evictable.isSome) :
    ∃ c v k, s.clockScan start = some c ∧ c.victim = some v
      ∧ ClockChoice (fun p => (s.proc p).level) s.frameTable s.clockHand
          start v ∧ Swept s.frameTable s.clockHand k c
      ∧ ScanStops (fun p => (s.proc p).level) s.frameTable s.clockHand start v k := by
  refine clockLoop_spec hex (by decide) (fun j hj => ?_) _ 0 s.clock
    (Nat.zero_add _) s.clock_lowest (s.clock_inv start)
  exact sweep_lt (by omega)

/-- Two sweeps are enough from the position of the hand. -/
theorem clockLoop_ends (s : Kernel) (hex : ∃ i < maxFrames, (s.frameTable i).evictable.isSome) :
    ∃ c, clockLoop level s.clockHand (2 * maxFrames) s.clock = some c := by
  have hinv : ScanInv level s.frameTable s.clockHand s.clockHand _ 0 s.clock :=
    s.clock_inv s.clockHand
  have hlast : ∀ j < 2 * maxFrames, sweep s.clockHand s.clockHand j
      < sweep s.clockHand s.clockHand (2 * maxFrames) := by
    intro j hj
    simp only [sweep, span, if_true, maxFrames] at *
    omega
  obtain ⟨c, -, -, hc, -⟩ := clockLoop_spec hex le_rfl hlast _ 0 s.clock (Nat.zero_add _)
    s.clock_lowest hinv
  exact ⟨c, hc⟩

end scan

end GemOS
