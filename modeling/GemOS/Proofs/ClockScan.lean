/-
The clock scan of `evict_page` when nobody moves the hand between
`start_index = clock_hand` and the lock: how long it takes, what it
picks, and what it leaves of the table.

# The order of the scan

From the position of the hand the sweeps are the two halves of the scan:
a frame whose reference bit is clear has its turn in the first, a
referenced one in the second. `clockKey` then reads as the policy says,
unreferenced frames first, then the largest level, then the frames in
the order of the clock.

# Nothing to evict

Both exits of the `while(1)` need a victim. Without a frame in use by a
process there is none, so `evict_page` never gets to its `return 0`.
-/
import GemOS.Proofs.EvictRun

namespace GemOS

open Prog

variable {s s' : Kernel} {v : Nat} {p : ProcId}
  {level : ProcId → Fin mlfqLevels} {table : Nat → FrameEntry} {hand : Fin maxFrames} {i j k : Nat}

-- ======== the end of the scan

/-- The scan is over after at most two rounds for each frame. -/
def Kernel.ScanEnds (s : Kernel) : Prop :=
  (clockLoop (fun p => (s.proc p).level) s.clockHand (2 * maxFrames) s.clock).isSome

/-- The scan ends in two sweeps, and an eviction without a candidate
returns 0, exactly when there is a candidate. -/
theorem scanEnds_iff (s : Kernel) :
    (s.ScanEnds ∧ (¬ s.Evictable → ∃ s' t, evictPage s = .ok (none, s', t))) ↔ s.Evictable := by
  constructor
  · rintro ⟨-, hzero⟩
    by_contra hno
    obtain ⟨s', t, hrun⟩ := hzero hno
    exact evictPage_hangs hno _ _ hrun
  · intro hex
    obtain ⟨c, hc⟩ := clockLoop_ends s hex
    refine ⟨?_, fun hno => absurd hex hno⟩
    unfold Kernel.ScanEnds
    rw [hc]
    rfl

/-- After the boot no frame is registered: no number of rounds is enough,
and `evict_page` does not return. -/
theorem scanEnds_never : (∀ rounds, clockLoop (fun p => (smallBoot.proc p).level)
        smallBoot.clockHand rounds smallBoot.clock = none)
      ∧ ∀ r s' t, evictPage smallBoot ≠ .ok (r, s', t) := by
  have hnone : ∀ i < maxFrames, (smallBoot.frameTable i).evictable = none := fun i _ => rfl
  have hno : ¬ smallBoot.Evictable := by
    rintro ⟨i, hi, he⟩
    rw [hnone i hi] at he
    cases he
  exact ⟨fun rounds => clockLoop_hangs _ _ hnone rfl, fun r s' t => evictPage_hangs hno r t⟩

-- ======== the choice

/-- The frames the victim comes from: in use by a process and not
referenced, or any in use by a process if all of these are referenced. -/
def Candidate (table : Nat → FrameEntry) (i : Nat) : Prop :=
  i < maxFrames ∧ (table i).evictable.isSome ∧ ((table i).refBit = false
      ∨ ∀ j < maxFrames, (table j).evictable.isSome → (table j).refBit = true)

/-- The victim the policy asks for: a candidate of largest level, the
first of these in the order of the clock. -/
structure VictimChoice (level : ProcId → Fin mlfqLevels)
    (table : Nat → FrameEntry) (hand : Fin maxFrames) (v : Nat) (p : ProcId) :
    Prop where
  candidate : Candidate table v
  owner : (table v).evictable = some p
  highest : ∀ i q, Candidate table i → (table i).evictable = some q → level q ≤ level p
  first : ∀ i q, Candidate table i → (table i).evictable = some q →
    level q = level p → distance hand v ≤ distance hand i

/-- From the position of the hand, the sweep of a frame is its reference
bit. -/
theorem sweep_turn (table : Nat → FrameEntry) (hand : Fin maxFrames)
    (i : Nat) : sweep hand hand (turn table hand i) = if (table i).refBit then 1 else 0 := by
  have hd := distance_lt hand i
  simp only [sweep, span, turn, if_true]
  split <;> simp only [maxFrames] at * <;> omega

/-- Two frames of one sweep have their turns in the order of the clock. -/
theorem turn_le (href : (table i).refBit = (table j).refBit)
    (h : turn table hand i ≤ turn table hand j) : distance hand i ≤ distance hand j := by
  unfold turn at h
  rw [href] at h
  split at h <;> omega

/-- All candidates have the reference bit of any of them. -/
theorem Candidate.refBit_eq (hi : Candidate table i) (hj : Candidate table j) :
    (table i).refBit = (table j).refBit := by
  rcases hi.2.2 with hi' | hall
  · rcases hj.2.2 with hj' | hall
    · rw [hi', hj']
    · rw [hall i hi.1 hi.2.1] at hi'
      cases hi'
  · rw [hall i hi.1 hi.2.1, hall j hj.1 hj.2.1]

/-- No evictable frame has a smaller key, in the terms of the key. -/
theorem ClockChoice.compare (h : ClockChoice level table hand hand v)
    (hp : (table v).evictable = some p) {q : ProcId} (hi : i < maxFrames)
    (hq : (table i).evictable = some q) : ((table v).refBit = true → (table i).refBit = true)
      ∧ ((table v).refBit = (table i).refBit → level q ≤ level p
        ∧ (level q = level p → turn table hand v ≤ turn table hand i)) := by
  by_cases hiv : i = v
  · subst hiv
    rw [hp] at hq
    cases hq
    exact ⟨id, fun _ => ⟨Fin.le_refl _, fun _ => Nat.le_refl _⟩⟩
  · have hlt := h.least i hi hiv (by rw [hq]; rfl)
    simp only [clockKey, hp, hq, sweep_turn, Prod.Lex.toLex_lt_toLex] at hlt
    have hlp := (level p).isLt
    have hlq := (level q).isLt
    rw [Fin.le_def, Fin.ext_iff]
    simp only [mlfqLevels] at *
    cases hv : (table v).refBit <;> cases hr : (table i).refBit <;>
      simp only [hv, hr, Bool.false_eq_true, reduceIte] at hlt <;> simp <;> omega

/-- From the position of the hand, the choice of the clock is the one of
the policy. -/
theorem ClockChoice.victim (h : ClockChoice level table hand hand v)
    (hp : (table v).evictable = some p) :
    VictimChoice level table hand v p := by
  have hcand : Candidate table v := by
    refine ⟨h.bound, h.evictable, ?_⟩
    cases hv : (table v).refBit with
    | false => exact .inl rfl
    | true =>
      refine .inr fun j hj he => ?_
      obtain ⟨q, hq⟩ := Option.isSome_iff_exists.mp he
      exact (h.compare hp hj hq).1 hv
  refine ⟨hcand, hp, fun i q hi hq => ?_, fun i q hi hq hlev => ?_⟩
  · exact ((h.compare hp hi.1 hq).2 (hcand.refBit_eq hi)).1
  · have href := hcand.refBit_eq hi
    exact turn_le href (((h.compare hp hi.1 hq).2 href).2 hlev)

-- ======== the frame of the victim

/-- `get_frame_entry` undoes `frame_index_to_pa` below PHYSTOP. -/
theorem getFrameEntry_frameIndexToPa (s : Kernel) (hv : v < maxFrames)
    (hram : s.frameIndexToPa v < phystop) : s.getFrameEntry (s.frameIndexToPa v) = some v := by
  have hidx : (s.frameBase + v * pgsize - s.frameBase) / pgsize = v := by
    rw [Nat.add_sub_cancel_left]
    exact Nat.mul_div_cancel v (by decide)
  unfold Kernel.frameIndexToPa at *
  unfold Kernel.getFrameEntry
  rw [hidx, if_neg (by omega), if_neg (by omega)]

/-- How many frames the hand passes before the scan ends on frame `v` of
process `p`: those before the turn of `v` if `p` has the lowest level,
and otherwise the whole of the sweeps up to its turn. -/
def passedBy (level : ProcId → Fin mlfqLevels) (table : Nat → FrameEntry)
    (hand : Fin maxFrames) (v : Nat) (p : ProcId) : Nat :=
  if (level p).val = mlfqLevels - 1 then turn table hand v
  else if (table v).refBit then 2 * maxFrames else maxFrames

/-- From the position of the hand, a scan stops after whole sweeps or on
its victim. -/
theorem ScanStops.passedBy (h : ScanStops level table hand hand v k)
    (hp : (table v).evictable = some p) : k = passedBy level table hand v p := by
  have hstop := h p hp
  have hlt := hand.isLt
  unfold GemOS.passedBy
  split at hstop
  · rw [if_pos ‹_›]
    exact hstop
  · obtain ⟨hback, hsweep⟩ := hstop
    rw [if_neg ‹_›]
    rw [sweep_turn] at hsweep
    simp only [sweep, span, if_true, maxFrames] at *
    split at hsweep <;> simp_all <;> omega

/-- With a frame in use by a process, and frames in use only below
PHYSTOP, the scan ends on the victim the policy asks for; it has cleared
the reference bits of the frames its hand has passed and changed nothing
else in the table, and the address of the victim leads back to it. -/
theorem selectVictim_least (s : Kernel) (hex : s.Evictable)
    (hram : ∀ i < maxFrames, (s.frameTable i).inUse = true → s.frameIndexToPa i < phystop) :
    ∃ v p k s', selectVictim s.clockHand s = .ok (some v, s', [])
      ∧ VictimChoice (fun p => (s.proc p).level) s.frameTable s.clockHand v p
      ∧ k = passedBy (fun p => (s.proc p).level) s.frameTable s.clockHand v p
      ∧ s' = { s with frameTable := s'.frameTable, clockHand := s'.clockHand }
      ∧ s'.clockHand.val = (s.clockHand.val + k) % maxFrames
      ∧ (∀ i < maxFrames, s'.frameTable i
          = if distance s.clockHand i < k ∧ (s.frameTable i).evictable.isSome
            then { s.frameTable i with refBit := false } else s.frameTable i)
      ∧ s.getFrameEntry (s.frameIndexToPa v) = some v := by
  obtain ⟨c, v, k, hscan, hv, hchoice, hswept, hstops⟩ := clockScan_choice s s.clockHand hex
  obtain ⟨p, hp⟩ := Option.isSome_iff_exists.mp hchoice.evictable
  have hrun : selectVictim s.clockHand s
      = .ok (some v, { s with frameTable := c.table, clockHand := c.hand }, []) := by
    simp only [selectVictim, get_bind_run, hscan, modify_bind_run, hv]
    rfl
  have huse : (s.frameTable v).inUse = true := by
    unfold FrameEntry.evictable at hp
    split at hp
    · assumption
    · cases hp
  refine ⟨v, p, k, _, hrun, hchoice.victim hp, hstops.passedBy hp, rfl, hswept.position, ?_,
    getFrameEntry_frameIndexToPa s hchoice.bound (hram v hchoice.bound huse)⟩
  intro i hi
  rw [show ({ s with frameTable := c.table, clockHand := c.hand } :
    Kernel).frameTable i = c.table i from rfl, hswept.passed i hi]
  unfold FrameEntry.passed
  by_cases hd : distance s.clockHand i < k
  · simp only [hd, if_true, true_and]
  · simp only [hd, if_false, false_and]

/-- One registered page, referenced. -/
def oneRegistered : Kernel :=
  smallBoot.setFrame 3
    { inUse := true, owner := some 0, vaddr := 0x1000, refBit := true,
      swapped := false, swapIndex := -1 }

theorem oneRegistered_other (i : Nat) (h3 : i ≠ 3) :
    oneRegistered.frameTable i = .initial := Function.update_of_ne h3 _ _

/-- The page is the victim after two sweeps, which have cleared its
reference bit. -/
theorem selectVictim_least_one : ∃ s', selectVictim oneRegistered.clockHand oneRegistered
        = .ok (some 3, s', [])
      ∧ (oneRegistered.frameTable 3).refBit = true ∧ (s'.frameTable 3).refBit = false
      ∧ s'.clockHand = oneRegistered.clockHand := by
  have hex : oneRegistered.Evictable := ⟨3, by decide, rfl⟩
  have hram : ∀ i < maxFrames, (oneRegistered.frameTable i).inUse = true →
      oneRegistered.frameIndexToPa i < phystop := by
    intro i _ huse
    by_cases h3 : i = 3
    · subst h3
      decide
    · rw [oneRegistered_other i h3] at huse
      cases huse
  obtain ⟨v, p, k, s', hrun, hchoice, hk, -, hhand, htable, -⟩ :=
    selectVictim_least oneRegistered hex hram
  obtain rfl : v = 3 := by
    by_contra h3
    have howner := hchoice.owner
    rw [oneRegistered_other v h3] at howner
    cases howner
  obtain rfl : (0 : ProcId) = p := Option.some.inj hchoice.owner
  have h2 : k = 2 * maxFrames := hk.trans (by decide)
  refine ⟨s', hrun, rfl, ?_, Fin.ext ?_⟩
  · rw [htable 3 (by decide), h2]
    rfl
  · rw [hhand, h2]
    rfl

end GemOS
