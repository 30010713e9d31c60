/-
`evict_page` from the outside: what a victim selection does to the
state, and what an eviction comes to when memory has run out.

The scan itself changes reference bits and the hand only (`Scanned`
states). The eviction behind it needs a page for its own disk request,
so with an empty free list it fails, whatever the scan has found.
-/
import GemOS.Kernel.Boot
import GemOS.Proofs.Clock

namespace GemOS

open Function Prog

-- ======== victim selection

/-- A frame entry without its reference bit. -/
def FrameEntry.core (e : FrameEntry) : FrameEntry := { e with refBit := false }

/-- A visit changes a reference bit, of a frame there is. -/
theorem visit_core (level : ProcId → Fin mlfqLevels) (c : Clock) (i : Nat) :
    ((c.visit level).table i).core = (c.table i).core
      ∧ (maxFrames ≤ i → (c.visit level).table i = c.table i) := by
  rcases visit_cases level c with
    ⟨-, hv⟩ | ⟨p, -, ⟨-, hv⟩ | ⟨-, ⟨-, hv⟩ | ⟨-, hv⟩⟩⟩ <;> rw [hv]
  all_goals try exact ⟨rfl, fun _ => rfl⟩
  by_cases hi : i = c.hand.val
  · simp only [hi, update_self]
    exact ⟨rfl, fun hge => absurd c.hand.isLt (Nat.not_lt.mpr hge)⟩
  · simp [update_of_ne hi]

variable {level : ProcId → Fin mlfqLevels} {start : Fin maxFrames}
  {r : Option Nat} {s s' : Kernel} {t : List (Mark × Kernel)} {f : Nat → Bool}
  {slot idx pa : Nat} {p : ProcId}

theorem clockLoop_core (fuel : Nat) : ∀ {c c' : Clock}, clockLoop level start fuel c = some c' →
    ∀ i, (c'.table i).core = (c.table i).core ∧ (maxFrames ≤ i → c'.table i = c.table i) := by
  induction fuel with
  | zero => intro c c' h; cases h
  | succ fuel ih =>
    intro c c' h i
    unfold clockLoop at h
    have hvisit := visit_core level c i
    split at h
    · cases h
      exact hvisit
    · dsimp only at h
      split at h
      · cases h
        exact hvisit
      · obtain ⟨hcore, hbeyond⟩ := ih h i
        exact ⟨hcore.trans hvisit.1, fun hge => (hbeyond hge).trans (hvisit.2 hge)⟩

/-- A state after a victim selection: reference bits and the hand may
have changed. -/
def Scanned (s s' : Kernel) : Prop :=
  ∃ table hand, s' = { s with frameTable := table, clockHand := hand }
    ∧ ∀ i, (table i).core = (s.frameTable i).core

theorem selectVictim_ok (h : selectVictim start s = .ok (r, s', t)) : Scanned s s' ∧ t = [] := by
  simp only [selectVictim, get_bind_run] at h
  cases hscan : s.clockScan start with
  | none => rw [hscan] at h; cases h
  | some c =>
    have hcore := fun i => (clockLoop_core _ hscan i).1
    rw [hscan] at h
    simp only [modify_bind_run] at h
    cases hv : c.victim with
    | none =>
      simp only [hv, modify_bind_run, get_bind_run, pure_run, Except.ok.injEq, Prod.mk.injEq] at h
      obtain ⟨-, rfl, rfl⟩ := h
      exact ⟨⟨c.table, _, rfl, hcore⟩, rfl⟩
    | some idx =>
      rw [hv] at h
      cases h
      exact ⟨⟨c.table, c.hand, rfl, hcore⟩, rfl⟩

/-- Some frame is in use by a process. -/
def Kernel.Evictable (s : Kernel) : Prop :=
  ∃ i < maxFrames, (s.frameTable i).evictable.isSome

/-- With something to evict the selection returns the clock's choice. -/
theorem selectVictim_run (s : Kernel) (start : Fin maxFrames)
    (hex : ∃ i < maxFrames, (s.frameTable i).evictable.isSome) :
    ∃ v s', selectVictim start s = .ok (some v, s', []) ∧ Scanned s s'
      ∧ ClockChoice (fun p => (s.proc p).level) s.frameTable s.clockHand start v := by
  obtain ⟨c, v, -, hscan, hv, hchoice, -, -⟩ := clockScan_choice s start hex
  have hrun : selectVictim start s
      = .ok (some v, { s with frameTable := c.table, clockHand := c.hand }, []) := by
    simp only [selectVictim, get_bind_run, hscan, modify_bind_run, hv]
    rfl
  exact ⟨v, _, hrun, (selectVictim_ok hrun).1, hchoice⟩

/-- A round at a frame that cannot be evicted, before any victim is
found. -/
theorem clockLoop_pass {fuel : Nat} {c : Clock}
    (he : (c.table c.hand).evictable = none) (hv : c.victim = none) :
    clockLoop level start (fuel + 1) c = clockLoop level start fuel c.advance := by
  have hvisit : c.visit level = c := by
    simp only [Clock.visit, he]
  have hsettles : c.settles level = false := by
    simp only [Clock.settles, he]
  rw [clockLoop, hsettles, hvisit, if_neg Bool.false_ne_true]
  dsimp only
  rw [if_neg (by simp [Clock.advance, hv])]

/-- With nothing to evict the scan goes on for ever. -/
theorem clockLoop_hangs (fuel : Nat) : ∀ (c : Clock),
    (∀ i < maxFrames, (c.table i).evictable = none) → c.victim = none →
    clockLoop level start fuel c = none := by
  induction fuel with
  | zero => intro c _ _; rfl
  | succ fuel ih =>
    intro c hnone hv
    rw [clockLoop_pass (hnone c.hand c.hand.isLt) hv]
    exact ih _ hnone hv

/-- A selection that returns has returned the clock's choice. -/
theorem selectVictim_choice (h : selectVictim start s = .ok (r, s', t)) :
    ∃ v, r = some v ∧ ClockChoice (fun p => (s.proc p).level) s.frameTable s.clockHand start v := by
  by_cases hex : ∃ i < maxFrames, (s.frameTable i).evictable.isSome
  · obtain ⟨v, s1, hrun, -, hchoice⟩ := selectVictim_run s start hex
    rw [hrun] at h
    cases h
    exact ⟨v, rfl, hchoice⟩
  · have hnone : ∀ i < maxFrames, (s.frameTable i).evictable = none := by
      intro i hi
      by_contra hi'
      exact hex ⟨i, hi, Option.isSome_iff_ne_none.mpr hi'⟩
    have hscan : s.clockScan start = none := clockLoop_hangs _ _ hnone rfl
    simp only [selectVictim, get_bind_run, hscan] at h
    cases h

/-- With nothing to evict `evict_page` hangs. -/
theorem evictPage_hangs (h : ¬ s.Evictable) (r : Option Nat)
    (t : List (Mark × Kernel)) : evictPage s ≠ .ok (r, s', t) := by
  intro hr
  obtain ⟨start, s1, t1, t2, hhand, hrest, -⟩ := bind_ok hr
  cases hhand
  obtain ⟨w, s2, t3, t4, hvict, -⟩ := bind_ok hrest
  obtain ⟨v, -, hchoice⟩ := selectVictim_choice hvict
  exact h ⟨v, hchoice.bound, hchoice.evictable⟩

-- ======== searches

theorem firstIndex_spec (n : Nat) : ∀ {i k : Nat}, firstIndex f n i = some k →
    f k = true ∧ ∀ j, i ≤ j → j < k → f j = false := by
  induction n with
  | zero => intro i k h; cases h
  | succ n ih =>
    intro i k h
    unfold firstIndex at h
    split at h
    · grind [Nat.not_le]
    · next hf =>
      obtain ⟨hk, hall⟩ := ih h
      refine ⟨hk, fun j hij hj => ?_⟩
      rcases Nat.eq_or_lt_of_le hij with rfl | hlt
      · exact Bool.eq_false_iff.mpr hf
      · exact hall j hlt hj

theorem firstIndex_lt (n : Nat) : ∀ {i k : Nat}, firstIndex f n i = some k → k < i + n := by
  induction n with
  | zero => intro i k h; cases h
  | succ n ih => grind [firstIndex]

theorem firstIndex_exists (n : Nat) : ∀ {i k : Nat},
    i ≤ k → k < i + n → f k = true → ∃ j ≤ k, firstIndex f n i = some j := by
  induction n with
  | zero => intro i k h1 h2; omega
  | succ n ih => grind [firstIndex]

theorem firstIndex_none (hf : ∀ i, f i = false) (n : Nat) : ∀ i, firstIndex f n i = none := by
  induction n with
  | zero => intro i; rfl
  | succ n ih =>
    intro i
    unfold firstIndex
    rw [if_neg (by rw [hf i]; decide)]
    exact ih (i + 1)

theorem freeSlot_spec (h : s.freeSlot = some slot) : (s.swapDiskTable slot).inUse = false
      ∧ ∀ j < slot, (s.swapDiskTable j).inUse = true := by
  obtain ⟨hk, hall⟩ := firstIndex_spec _ h
  refine ⟨by simpa using hk, fun j hj => ?_⟩
  simpa using hall j (Nat.zero_le j) hj

theorem swapSlotOf_spec {va : Nat} (h : s.swapSlotOf p va = some slot) :
    (s.swapDiskTable slot).inUse = true ∧ (s.swapDiskTable slot).owner = some p
      ∧ (s.swapDiskTable slot).vaddr = va := by
  simpa [and_assoc] using (firstIndex_spec _ h).1

/-- `swap_page_out` of an owned frame, with a slot and a block to be had:
what is left to do. -/
theorem swapPageOut_run (hentry : s.getFrameEntry pa = some idx)
    (howner : (s.frameTable idx).owner = some p) (hslot : s.freeSlot = some slot)
    (hnext : s.nextSwapBlock < numDisks * diskBlocksPerDisk) : swapPageOut pa s = (do
          if (← submitRequest .write s.nextSwapBlock pa (some p)) ≠ 0 then
            return -1
          else
            recordSwap slot idx s.nextSwapBlock
            markSwappedOut idx slot
            return 0 : K Int)
        { s with nextSwapBlock := s.nextSwapBlock + 1 } := by
  have hfind : findSwapSlot s = .ok (some slot, s, []) := by
    rw [← hslot]
    rfl
  have hblock : takeSwapBlock s = .ok (some s.nextSwapBlock,
          { s with nextSwapBlock := s.nextSwapBlock + 1 }, []) := by
    simp only [takeSwapBlock, get_bind_run, if_neg (Int.not_le.mpr hnext)]
    rfl
  simp only [GemOS.swapPageOut, get_bind_run, hentry]
  rw [if_neg (by rw [howner]; simp), bind_run_quiet hfind]
  dsimp only
  rw [bind_run_quiet hblock]
  simp only [get_bind_run, howner]

/-- No block is left. -/
theorem swapPageOut_refused (hentry : s.getFrameEntry pa = some idx)
    (howner : (s.frameTable idx).owner = some p) (hslot : s.freeSlot = some slot)
    (hnext : numDisks * diskBlocksPerDisk ≤ s.nextSwapBlock) :
    swapPageOut pa s = .ok (-1, s, []) := by
  have hfind : findSwapSlot s = .ok (some slot, s, []) := by
    rw [← hslot]
    rfl
  have hblock : takeSwapBlock s = .ok (none, s, []) := by
    simp only [takeSwapBlock, get_bind_run, if_pos hnext]
    rfl
  simp only [swapPageOut, get_bind_run, hentry]
  rw [if_neg (by rw [howner]; simp), bind_run_quiet hfind]
  dsimp only
  rw [bind_run_quiet hblock]
  rfl

-- ======== exhaustion

/-- Memory has run out, and nobody frees any while a call runs. -/
structure Exhausted (s : Kernel) : Prop where
  freelist : s.freelist = []
  env : s.env = []

theorem Exhausted.submitRequest (h : Exhausted s) (type : DiskOp)
    (logicalBlock : Int) (buffer : Nat) (p : Option ProcId) :
    submitRequest type logicalBlock buffer p s = .ok (-1, s, []) := by
  have hrun := addRequest_run type logicalBlock buffer p s
  rw [Kernel.interfered_of_env_nil h.env, h.freelist] at hrun
  have hadd : addDiskRequest type logicalBlock buffer p s = .ok (-1, s, []) := by
    unfold addDiskRequest
    rw [bind_run_quiet hrun]
    rfl
  unfold GemOS.submitRequest
  rw [bind_run_quiet hadd]
  rfl

/-- With nothing to allocate, `swap_page_out` fails after it has taken its
block. -/
theorem Exhausted.swapPageOut_leaks (h : Exhausted s) (hentry : s.getFrameEntry pa = some idx)
    (howner : (s.frameTable idx).owner = some p) (hslot : s.freeSlot = some slot)
    (hnext : s.nextSwapBlock < numDisks * diskBlocksPerDisk) :
    GemOS.swapPageOut pa s = .ok (-1, { s with nextSwapBlock := s.nextSwapBlock + 1 }, []) := by
  have h' : Exhausted { s with nextSwapBlock := s.nextSwapBlock + 1 } := ⟨h.freelist, h.env⟩
  rw [swapPageOut_run hentry howner hslot hnext, bind_run_quiet (h'.submitRequest ..)]
  rfl

/-- `swap_page_out` cannot allocate its request. -/
theorem Exhausted.swapPageOut (h : Exhausted s) (pa : Nat) :
    ∃ s', swapPageOut pa s = .ok (-1, s', []) := by
  cases hentry : s.getFrameEntry pa with
  | none =>
    refine ⟨s, ?_⟩
    simp only [GemOS.swapPageOut, get_bind_run, hentry]
    rfl
  | some idx =>
    cases howner : (s.frameTable idx).owner with
    | none =>
      refine ⟨s, ?_⟩
      simp only [GemOS.swapPageOut, get_bind_run, hentry, howner]
      rfl
    | some p =>
      have hfind : findSwapSlot s = .ok (s.freeSlot, s, []) := rfl
      cases hslot : s.freeSlot with
      | none =>
        refine ⟨s, ?_⟩
        simp only [GemOS.swapPageOut, get_bind_run, hentry, howner]
        rw [if_neg (by simp), bind_run_quiet hfind, hslot]
        rfl
      | some slot => grind [h.swapPageOut_leaks, swapPageOut_refused, Int.not_lt]

/-- The eviction that memory exhaustion calls for fails. -/
theorem Exhausted.evictPage (h : Exhausted s)
    (hex : ∃ i < maxFrames, (s.frameTable i).evictable.isSome) :
    ∃ s', evictPage s = .ok (none, s', []) := by
  obtain ⟨v, s1, hsel, ⟨table, hand, rfl, -⟩, -⟩ := selectVictim_run s s.clockHand hex
  have h1 : Exhausted { s with frameTable := table, clockHand := hand } := ⟨h.freelist, h.env⟩
  obtain ⟨s2, hout⟩ := h1.swapPageOut
    (Kernel.frameIndexToPa { s with frameTable := table, clockHand := hand } v)
  have hread : readHand s = .ok (s.clockHand, s, []) := rfl
  refine ⟨s2, ?_⟩
  unfold GemOS.evictPage
  rw [bind_run_quiet hread, bind_run_quiet hsel]
  simp only [evictFrame, get_bind_run]
  rw [bind_run_quiet hout]
  rfl

/-- Whenever the free list is empty and some frame is in use by a live
process, `evict_page`, run without interference, returns the null
pointer: with swap space left or not, it never makes progress. -/
theorem evictPage_returns_null (s : Kernel) (hfree : s.freelist = []) (henv : s.env = [])
    (hex : ∃ i < maxFrames, ∃ p, (s.frameTable i).inUse = true
      ∧ (s.frameTable i).owner = some p ∧ (s.proc p).state ≠ .unused) :
    ∃ s', evictPage s = .ok (none, s', []) := by
  obtain ⟨i, hi, p, huse, howner, -⟩ := hex
  refine Exhausted.evictPage ⟨hfree, henv⟩ ⟨i, hi, ?_⟩
  unfold FrameEntry.evictable
  rw [huse, if_pos rfl, howner]
  rfl

/-- One running process owns the first frame, nothing is free, and both
swap slots and swap blocks are left. -/
def outOfMemory : Kernel :=
  { Kernel.initial 0x80020000 0x80001000 [] with
    proc := fun _ => { Proc.initial with state := .running }
    frameTable := update (fun _ => .initial) 0
      { FrameEntry.initial with inUse := true, owner := some 0 } }

theorem evictPage_outOfMemory : outOfMemory.freelist = []
      ∧ ∃ s', evictPage outOfMemory = .ok (none, s', []) :=
  ⟨rfl, evictPage_returns_null outOfMemory rfl rfl ⟨0, by decide, 0, rfl, rfl, by decide⟩⟩

/-- The state above meets every condition for progress, and there is
none. -/
theorem eviction_makes_no_progress : outOfMemory.freelist = [] ∧ outOfMemory.env = []
      ∧ (outOfMemory.frameTable 0).inUse = true
      ∧ (outOfMemory.frameTable 0).owner = some 0
      ∧ (outOfMemory.proc 0).state ≠ .unused
      ∧ (outOfMemory.swapDiskTable 0).inUse = false
      ∧ outOfMemory.nextSwapBlock < numDisks * diskBlocksPerDisk
      ∧ ¬ ∃ pa s' t, evictPage outOfMemory = .ok (some pa, s', t) := by
  refine ⟨rfl, rfl, rfl, rfl, by decide, rfl, by decide, ?_⟩
  obtain ⟨s', hrun⟩ := Exhausted.evictPage (s := outOfMemory) ⟨rfl, rfl⟩ ⟨0, by decide, rfl⟩
  rintro ⟨pa, s'', t, h⟩
  rw [hrun] at h
  cases h

end GemOS
