/-
What one call of the swapping code can do when no other is under way.

The ledger is the part of the state that outlives a call: the swap
table, the block counter, the RAID mode and the queue. A call is a
sequence of `SwapMove`s (`*_steps`), and a move names everything it does
to the ledger and every event it logs, so a result about all runs is one
case per move.

# The moves

`aside` leaves the ledger alone; `leak` takes a block number that no
entry gets; `out` is a `swap_page_out` from its block number to its
return; `fetch` is a `swap_page_in` from its request to the clearing of
the entry. Runs in which no request fails have no `leak`: that is the
parameter `lossy`.
-/
import GemOS.Proofs.Interleave
import GemOS.Proofs.Progress

namespace GemOS

open Function Prog Conc

-- ======== the ledger

structure Ledger where
  table : Nat → SwapDiskEntry
  next : Int
  mode : RaidMode
  head : Option Nat
  tail : Option Nat

def Kernel.ledger (s : Kernel) : Ledger :=
  { table := s.swapDiskTable
    next := s.nextSwapBlock
    mode := s.raidMode
    head := s.diskQueueHead
    tail := s.diskQueueTail }

/-- The request that `add_disk_request` fills in for a block. -/
structure Carries (type : DiskOp) (block : Int) (mode : RaidMode) (r : DiskRequest) : Prop where
  type : r.type = type
  place : raidMapLogicalToPhysical mode block = some (r.diskId, r.blockOnDisk)

/-- A request queued with nothing pending, and served at once. -/
structure Handled (t : ProcId) (own : Nat) (type : DiskOp) (block : Int)
    (s : Kernel) (n : Notes Event Kernel) (s' : Kernel) : Prop where
  notes : ∃ s1 s2 s3, n = [(.enqueued t own, s1), (.taken t own (some own), s2),
      (.served t own, s3), (.freed t own, s')]
    ∧ Carries type block s.raidMode (s1.requests own)
  ledger : s'.ledger = s.ledger

-- ======== the moves

/-- Events that no move of the ledger goes with. -/
def Event.minor : Event → Bool
  | .found .. | .released _ | .pinned .. | .unpinned _ | .freed .. | .returned ..
  | .swappedIn _ | .selected .. | .evicted .. | .failed _ | .registered .. => true
  | _ => false

/-- What a step of a call of process `t` can do (module comment). -/
inductive SwapMove (lossy : Prop) (t : ProcId) : Kernel → Notes Event Kernel → Kernel → Prop
  | aside {s s' : Kernel} {n : Notes Event Kernel} :
      s'.ledger = s.ledger → (∀ m ∈ n, m.1.minor = true) →
      SwapMove lossy t s n s'
  | leak {s s' : Kernel} {n : Notes Event Kernel} :
      lossy → s'.ledger = { s.ledger with next := s.nextSwapBlock + 1 } →
      (∀ m ∈ n, m.1.minor = true) → SwapMove lossy t s n s'
  | out {s s0 s1 s2 s' : Kernel} {n : Notes Event Kernel} {slot own : Nat}
      {f : FrameEntry} {e : SwapDiskEntry} :
      s.freeSlot = some slot → s.nextSwapBlock < numDisks * diskBlocksPerDisk →
      s0.ledger = { s.ledger with next := s.nextSwapBlock + 1 } →
      Handled t own .write s.nextSwapBlock s0 n s1 →
      e.inUse = true → e.logicalBlock = s.nextSwapBlock →
      s'.ledger = { s0.ledger with table := update s.swapDiskTable slot e } →
      SwapMove lossy t s (n ++ [(.recorded t slot e, s2),
        (.swappedOut t f s.nextSwapBlock e, s'), (.returned t own, s')]) s'
  | fetch {s s1 s' : Kernel} {n : Notes Event Kernel} {slot va own : Nat} :
      slot < maxSwapDiskEntries → (s.swapDiskTable slot).inUse = true →
      (s.swapDiskTable slot).owner = some t → (s.swapDiskTable slot).vaddr = va →
      Handled t own .read (s.swapDiskTable slot).logicalBlock s n s1 →
      s'.ledger = { s.ledger with
        table := update s.swapDiskTable slot { s.swapDiskTable slot with
            inUse := false, owner := none, vaddr := 0, logicalBlock := -1 } } →
      SwapMove lossy t s (n ++ [(.cleared t slot va, s')]) s'

/-- The moves of one call. -/
abbrev SwapSteps (lossy : Prop) (t : ProcId) : Kernel → Notes Event Kernel → Kernel → Prop :=
  Steps (SwapMove lossy t)

section moves

variable {lossy : Prop} {t : ProcId} {s s' : Kernel} {n : Notes Event Kernel}

variable {l : Ledger} {block : Int} {own : Nat} {type : DiskOp}

theorem idle_of_ledger (hl : s'.ledger = l) (hhead : l.head = s.ledger.head)
    (htail : l.tail = s.ledger.tail) (h : Idle s) : Idle s' := by
  subst hl
  rw [idle_iff] at h ⊢
  exact ⟨hhead.trans h.1, htail.trans h.2⟩

theorem mode_of_ledger (hl : s'.ledger = l) : s'.raidMode = l.mode := congrArg Ledger.mode hl

theorem Handled.congr {s1 : Kernel} (hl : s1.ledger = s.ledger)
    (h : Handled t own type block s1 n s') : Handled t own type block s n s' := by
  obtain ⟨hn, hled⟩ := h
  rw [mode_of_ledger hl] at hn
  exact ⟨hn, hled.trans hl⟩

/-- No move leaves a request pending or changes the RAID mode. -/
theorem SwapMove.settled (h : SwapMove lossy t s n s') (hi : Idle s) :
    Idle s' ∧ s'.raidMode = s.raidMode := by
  cases h with
  | aside hl | leak _ hl => exact ⟨idle_of_ledger hl rfl rfl hi, mode_of_ledger hl⟩
  | out _ _ h0 _ _ _ hl =>
    rw [h0] at hl
    exact ⟨idle_of_ledger hl rfl rfl hi, mode_of_ledger hl⟩
  | fetch _ _ _ _ _ hl => exact ⟨idle_of_ledger hl rfl rfl hi, mode_of_ledger hl⟩

theorem minor_singleton {e : Event} {s1 : Kernel} (he : e.minor = true) :
    ∀ m ∈ [(e, s1)], m.1.minor = true := by
  intro m hm
  rw [List.mem_singleton.mp hm]
  exact he

/-- An event that goes with no move. -/
theorem steps_minor {e : Event} {s1 : Kernel} (hl : s'.ledger = s.ledger)
    (he : e.minor = true) : SwapSteps lossy t s [(e, s1)] s' :=
  .single (.aside hl (minor_singleton he))

/-- Several of them, or none. -/
theorem steps_minors {β : Type} {l : List β} {f : β → Event} {s1 : Kernel}
    (hl : s'.ledger = s.ledger) (hf : ∀ x, (f x).minor = true) :
    SwapSteps lossy t s ((l.map f).map (·, s1)) s' := by
  refine .single (.aside hl fun m hm => ?_)
  simp only [List.mem_map] at hm
  obtain ⟨_, ⟨x, -, rfl⟩, rfl⟩ := hm
  exact hf x

theorem SwapSteps.settled (h : SwapSteps lossy t s n s') (hi : Idle s) :
    Idle s' ∧ s'.raidMode = s.raidMode := by
  induction h with
  | refl => exact ⟨hi, rfl⟩
  | tail _ hm ih =>
    obtain ⟨hi', hmode⟩ := hm.settled ih.1
    exact ⟨hi', hmode.trans ih.2⟩

end moves

-- ======== requests

section calls

variable {α β : Type} {t : ProcId} {s s' : Kernel} {n : Notes Event Kernel}

variable {b : β} {x : K α} {m : Notes Mark Kernel} {r : Option Nat}
  {pa buffer va : Nat} {block : Int} {p : Option ProcId} {type : DiskOp}

theorem quiet_bind_ok {f : α → C β} (h : (quiet x >>= f).solo s = .ok (b, s', n)) :
    ∃ a s1 m, x s = .ok (a, s1, m) ∧ (f a).solo s1 = .ok (b, s', n) := by
  obtain ⟨a, s1, m, n', hx, hf, rfl⟩ := atomic_bind_ok h
  exact ⟨a, s1, m, hx, hf⟩

/-- The next `kalloc` call succeeds. -/
def Stocked (s : Kernel) : Prop := s.interfered.freelist ≠ []

theorem Kernel.processed_ledger (s : Kernel) (req : Nat) : (s.processed req).ledger = s.ledger := by
  obtain ⟨heads, rd, wr, tot, ops, proc, hshape, -⟩ := s.processed_shape req
  rw [hshape]
  rfl

theorem ledger_kalloc (h : kalloc s = .ok (r, s', m)) :
    s'.ledger = s.ledger ∧ s'.frameTable = s.frameTable :=
  ⟨(beside_kalloc.comp Kernel.ledger) h, (beside_kalloc.comp Kernel.frameTable) h⟩

theorem ledger_kfree {u : Unit} (h : kfree pa s = .ok (u, s', m)) :
    s'.ledger = s.ledger ∧ s'.frameTable = s.frameTable :=
  ⟨((beside_kfree pa).comp Kernel.ledger) h, ((beside_kfree pa).comp Kernel.frameTable) h⟩

/-- Queue, schedule, serve and free: the middle of both swap functions on
an idle queue, once the page of the request is there. -/
theorem handle_ok {req : Nat} {loc : Int × Int} {s1 s2 s3 : Kernel}
    {m2 m3 : Notes Mark Kernel} (hidle : Idle s)
    (hplace : raidMapLogicalToPhysical s.raidMode block = some loc)
    (hs1 : s.enqueue req (s.newRequest type block loc buffer p) = s1)
    (hsched : scheduleNextRequest s1 = .ok (some req, s2, m2))
    (hfree : kfree req (s2.processed req) = .ok ((), s3, m3)) :
    s3.frameTable = s.frameTable ∧ Handled t req type block s
        [(.enqueued t req, s1), (.taken t req (some req), s2),
          (.served t req, s2.processed req), (.freed t req, s3)] s3 := by
  have hlinked : Linked s1 [req] := by
    rw [← hs1]
    exact Linked.enqueue hidle (by simp) rfl
  have hself : s1.requests req = s.newRequest type block loc buffer p := by
    rw [← hs1]
    exact enqueue_self hidle (by simp)
  have hcarries : Carries type block s.raidMode (s1.requests req) := by
    rw [hself]
    exact ⟨rfl, hplace⟩
  obtain ⟨hhead, htail⟩ := idle_iff.mp hidle
  simp only [Kernel.enqueue, htail] at hs1
  obtain ⟨rq, -, hrun⟩ := schedule_single hlinked
  rw [hrun] at hsched
  cases hsched
  obtain ⟨hl3, hf3⟩ := ledger_kfree hfree
  obtain ⟨heads, rd, wr, tot, ops, proc, hshape, -⟩ := Kernel.processed_shape
    { s1 with diskQueueHead := none, diskQueueTail := none, requests := rq } req
  refine ⟨?_, ⟨_, _, _, rfl, hcarries⟩, ?_⟩
  · rw [hf3, hshape, ← hs1]
  · rw [hl3, Kernel.processed_ledger]
    simp only [← hs1, Kernel.ledger, hhead, htail]

/-- What a request of a lone caller can have done. -/
theorem submitRequestC_ok (hidle : Idle s)
    (h : (submitRequestC t type block buffer p).solo s = .ok (r, s', n)) :
    s'.frameTable = s.frameTable ∧ ((r = none ∧ (∀ m ∈ n, m.1.minor = true) ∧ s'.ledger = s.ledger
          ∧ (Stocked s → raidMapLogicalToPhysical s.raidMode block = none))
        ∨ ∃ own, r = some own ∧ Handled t own type block s n s') := by
  unfold submitRequestC at h
  obtain ⟨req?, s1, m1, hk, h1⟩ := quiet_bind_ok h
  obtain ⟨hl1, hf1⟩ := ledger_kalloc hk
  have hmode := mode_of_ledger hl1
  have hidle1 := idle_of_ledger hl1 rfl rfl hidle
  cases req? with
  | none =>
    cases h1
    refine ⟨hf1, .inl ⟨rfl, List.forall_mem_nil _, hl1, fun hst => ?_⟩⟩
    rw [kalloc_run] at hk
    cases hfl : s.interfered.freelist with
    | nil => exact absurd hfl hst
    | cons a l => rw [hfl] at hk; cases hk
  | some req =>
    obtain ⟨b, s2, m2, t2, he, h2, rfl⟩ := atomic_bind_ok h1
    simp only [enqueueRequest, get_bind_run] at he
    cases hplace : raidMapLogicalToPhysical s1.raidMode block with
    | none =>
      rw [hplace] at he
      cases he
      rw [if_neg Bool.false_ne_true] at h2
      obtain ⟨u, s3, m3, t3, hf, hret, rfl⟩ := atomic_bind_ok h2
      cases hret
      obtain ⟨hl2, hf2⟩ := ledger_kfree hf
      exact ⟨hf2.trans hf1, .inl ⟨rfl, minor_singleton rfl, hl2.trans hl1,
        fun _ => (congrArg (raidMapLogicalToPhysical · block) hmode).symm.trans hplace⟩⟩
    | some loc =>
      rw [hplace] at he
      simp only [modify_bind_run, pure_run, Except.ok.injEq, Prod.mk.injEq] at he
      obtain ⟨rfl, hs2, -⟩ := he
      rw [if_pos rfl] at h2
      obtain ⟨got, s3, m3, t3, hs, h3, rfl⟩ := atomic_bind_ok h2
      obtain rfl : got = some req := by
        obtain ⟨rq, -, hsingle⟩ := schedule_single
          (hs2 ▸ Linked.enqueue hidle1 (by simp) rfl : Linked s2 [req])
        rw [hsingle] at hs
        cases hs
        rfl
      obtain ⟨u, s4, m4, t4, hp, h4, rfl⟩ := atomic_bind_ok h3
      cases hp
      obtain ⟨u', s5, m5, t5, hf, hret, rfl⟩ := atomic_bind_ok h4
      cases hret
      obtain ⟨hf5, hh⟩ := handle_ok (t := t) hidle1 hplace hs2 hs hf
      exact ⟨hf5.trans hf1, .inr ⟨req, rfl, hh.congr hl1⟩⟩

-- ======== swap out

theorem Stocked.of_eq (h : Stocked s) (hfl : s'.freelist = s.freelist)
    (hhd : s'.held = s.held) (henv : s'.env = s.env) : Stocked s' := by
  unfold Stocked
  rw [interfered_freelist hfl hhd henv]
  exact h

theorem keeps_owner_markSwappedOut (idx slot i : Nat) :
    Keeps (fun s => (s.frameTable i).owner) (markSwappedOut idx slot) := by
  refine keeps_markSwappedOut (fun s => ?_) fun _ _ _ _ => rfl
  show (update s.frameTable idx _ i).owner = _
  by_cases hi : i = idx
  · rw [hi, update_self]
  · rw [update_of_ne hi]

/-- Every block number that `swap_page_out` takes has a place in RAID 0. -/
theorem raid0_total {b : Int} (hb : b < numDisks * diskBlocksPerDisk) :
    raidMapLogicalToPhysical .raid0 b ≠ none := by
  simp only [raidMapLogicalToPhysical, raid0Map]
  rw [if_neg]
  · exact Option.some_ne_none _
  · simp only [numDisks, diskBlocksPerDisk, Int.tdiv_eq_ediv] at hb ⊢
    split
    · omega
    · rw [show Int.sign 4 = 1 from rfl]
      omega

variable (lossy : Prop)

/-- Entries in use are left as they are. -/
def EntriesStay (s s' : Kernel) : Prop :=
  ∀ i, (s.swapDiskTable i).inUse = true → s'.swapDiskTable i = s.swapDiskTable i

theorem EntriesStay.of_table (h : s'.swapDiskTable = s.swapDiskTable) :
    EntriesStay s s' := fun i _ => congrFun h i

section recordOut

variable {slot idx pa own : Nat} {p : ProcId} {s0 s1 s2 : Kernel}
  (hidle : Idle s) (hnext : s.nextSwapBlock < numDisks * diskBlocksPerDisk)
  (hs0 : { s with nextSwapBlock := s.nextSwapBlock + 1 } = s0)

include hidle hs0 in
/-- A `swap_page_out` whose request fails has lost its block. -/
theorem lostOut_move (hfine : ¬ lossy → Stocked s ∧ s.raidMode = .raid0)
    (hnext : s.nextSwapBlock < numDisks * diskBlocksPerDisk)
    (hsub : (submitRequestC t .write s.nextSwapBlock pa (some p)).solo s0 = .ok (none, s1, n)) :
    SwapMove lossy t s n s1 ∧ EntriesStay s s1 := by
  have hled : s0.ledger = { s.ledger with next := s.nextSwapBlock + 1 } := by
    rw [← hs0]
    rfl
  obtain ⟨-, ⟨-, hn, hled1, hfail⟩ | ⟨own, hown, -⟩⟩ :=
    submitRequestC_ok (idle_of_ledger hled rfl rfl hidle) hsub
  · refine ⟨.leak ?_ (hled1.trans hled) hn, .of_table
      ((congrArg Ledger.table hled1).trans (congrArg Ledger.table hled))⟩
    by_contra hl
    obtain ⟨hst, hmode⟩ := hfine hl
    have hst0 : Stocked s0 := hst.of_eq (by rw [← hs0]) (by rw [← hs0]) (by rw [← hs0])
    refine raid0_total hnext ?_
    rw [← hmode, ← hfail hst0, ← hs0]
  · cases hown

include hidle hs0 in
/-- The end of a `swap_page_out` whose request was served. -/
theorem recordOut_move (hslot : s.freeSlot = some slot)
    (hnext : s.nextSwapBlock < numDisks * diskBlocksPerDisk)
    (howner : (s0.frameTable idx).owner = some p) {m : Notes Mark Kernel} {u : Unit}
    (hsub : (submitRequestC t .write s.nextSwapBlock pa (some p)).solo s0 = .ok (some own, s1, n))
    (hs2 : s1.setSwap slot (s1.swapEntryFor idx s.nextSwapBlock) = s2)
    (hmark : markSwappedOut idx slot s2 = .ok (u, s', m)) :
    SwapMove lossy t s (n ++ [(.recorded t slot (s1.swapEntryFor idx s.nextSwapBlock), s2),
          (.swappedOut t (s1.frameTable idx) s.nextSwapBlock
            (s1.swapEntryFor idx s.nextSwapBlock), s'), (.returned t own, s')]) s'
      ∧ EntriesStay s s' ∧ (s'.frameTable idx).owner = some p := by
  have hled : s0.ledger = { s.ledger with next := s.nextSwapBlock + 1 } := by
    rw [← hs0]
    rfl
  obtain ⟨hframes, ⟨hown, -⟩ | ⟨own', hown, hh⟩⟩ :=
    submitRequestC_ok (idle_of_ledger hled rfl rfl hidle) hsub
  · cases hown
  cases hown
  have hled1 : s1.ledger = s0.ledger := hh.ledger
  have htable : s1.swapDiskTable = s.swapDiskTable :=
    (congrArg Ledger.table hled1).trans (congrArg Ledger.table hled)
  have hled2 : s2.ledger = { s0.ledger with
      table := update s.swapDiskTable slot (s1.swapEntryFor idx s.nextSwapBlock) } := by
    rw [← hs2, ← hled1, ← htable]
    rfl
  have hled3 := keeps_markSwappedOut (f := Kernel.ledger) (fun _ => rfl) (fun _ _ _ _ => rfl) hmark
  refine ⟨.out hslot hnext hled hh rfl rfl (hled3.trans hled2), fun i hi => ?_, ?_⟩
  · have hne : i ≠ slot := by
      rintro rfl
      rw [(freeSlot_spec hslot).1] at hi
      cases hi
    refine (congrFun (congrArg Ledger.table (hled3.trans hled2)) i).trans ?_
    exact update_of_ne hne _ _
  · refine (keeps_owner_markSwappedOut idx slot idx hmark).trans ?_
    rw [← hs2]
    show (s1.frameTable idx).owner = some p
    rw [hframes]
    exact howner

end recordOut

/-- `swap_page_out` gives up before it has a block, loses the block, or
writes its entry. -/
theorem swapPageOutC_steps {r : Int} (hidle : Idle s)
    (hfine : ¬ lossy → Stocked s ∧ s.raidMode = .raid0)
    (h : (swapPageOutC t pa).solo s = .ok (r, s', n)) :
    SwapSteps lossy t s n s' ∧ EntriesStay s s' ∧ (r = 0 → ∃ idx p, s.getFrameEntry pa = some idx
        ∧ (s'.frameTable idx).owner = some p) := by
  unfold swapPageOutC at h
  obtain ⟨_, _, _, hget, h1⟩ := quiet_bind_ok h
  cases hget
  cases hentry : s.getFrameEntry pa with
  | none =>
    rw [hentry] at h1
    cases h1
    exact ⟨.refl s, fun _ _ => rfl, fun hr => absurd hr (by decide)⟩
  | some idx =>
    rw [hentry] at h1
    dsimp only at h1
    cases howner : (s.frameTable idx).owner with
    | none =>
      rw [howner, if_pos (by rfl)] at h1
      cases h1
      exact ⟨.refl s, fun _ _ => rfl, fun hr => absurd hr (by decide)⟩
    | some p =>
      rw [howner, if_neg (by simp)] at h1
      obtain ⟨slot?, _, _, t2, hs, h2, rfl⟩ := atomic_bind_ok h1
      cases hs
      cases hslot : s.freeSlot with
      | none =>
        rw [hslot] at h2
        cases h2
        exact ⟨.refl s, fun _ _ => rfl, fun hr => absurd hr (by decide)⟩
      | some slot =>
        rw [hslot] at h2
        obtain ⟨b?, s1, _, t3, hb, h3, rfl⟩ := atomic_bind_ok h2
        simp only [takeSwapBlock, get_bind_run] at hb
        have hfound : SwapSteps lossy t s [(.found t slot, s)] s := steps_minor rfl rfl
        by_cases hfull : s.nextSwapBlock ≥ numDisks * diskBlocksPerDisk
        · rw [if_pos hfull] at hb
          cases hb
          cases h3
          exact ⟨hfound.trans (steps_minor rfl rfl), fun _ _ => rfl,
            fun hr => absurd hr (by decide)⟩
        · rw [if_neg hfull] at hb
          simp only [modify_bind_run, pure_run, Except.ok.injEq, Prod.mk.injEq] at hb
          obtain ⟨rfl, hs1, -⟩ := hb
          obtain ⟨_, _, _, hg, h4⟩ := quiet_bind_ok h3
          cases hg
          have howner1 : (s1.frameTable idx).owner = some p := by
            rw [← hs1]
            exact howner
          rw [howner1, solo_bind] at h4
          obtain ⟨req?, s2, t4, t5, hsub, h5, rfl⟩ := bind_ok h4
          cases req? with
          | none =>
            obtain ⟨hmove, hstay⟩ := lostOut_move lossy hidle hs1 hfine (by omega) hsub
            obtain ⟨u, s3, _, t6, hlog, hret, rfl⟩ := atomic_bind_ok h5
            cases hlog
            cases hret
            exact ⟨hfound.trans ((Steps.single hmove).trans (steps_minor rfl rfl)), hstay,
              fun hr => absurd hr (by decide)⟩
          | some own =>
            obtain ⟨e, s3, _, t6, hrec, h6, rfl⟩ := atomic_bind_ok h5
            simp only [recordEntry, recordSwap, get_bind_run,
              modify_bind_run, pure_run, Except.ok.injEq, Prod.mk.injEq] at hrec
            obtain ⟨rfl, hs3, -⟩ := hrec
            obtain ⟨u, s4, _, t7, hmark, hret, rfl⟩ := atomic_bind_ok h6
            cases hret
            obtain ⟨hmove, hstay, hkept⟩ := recordOut_move lossy hidle hs1
              hslot (by omega) howner1 hsub hs3 hmark
            exact ⟨hfound.trans (.single hmove), hstay, fun _ => ⟨idx, p, rfl, hkept⟩⟩

-- ======== eviction

theorem evictPageC_steps (hidle : Idle s) (hfine : ¬ lossy → Stocked s ∧ s.raidMode = .raid0)
    (h : (evictPageC t).solo s = .ok (r, s', n)) : SwapSteps lossy t s n s' ∧ EntriesStay s s' := by
  unfold evictPageC at h
  obtain ⟨start, _, _, hread, h1⟩ := quiet_bind_ok h
  cases hread
  obtain ⟨v, s1, _, t2, hsel, h2, rfl⟩ := atomic_bind_ok h1
  obtain ⟨⟨table, hand, rfl, -⟩, -⟩ := selectVictim_ok hsel
  have hscan : SwapSteps lossy t s ((v.toList.map (Event.selected t)).map
      (·, { s with frameTable := table, clockHand := hand }))
      { s with frameTable := table, clockHand := hand } := steps_minors rfl fun _ => rfl
  cases v with
  | none =>
    cases h2
    exact ⟨hscan, fun _ _ => rfl⟩
  | some idx =>
    obtain ⟨_, _, _, hget, h3⟩ := quiet_bind_ok h2
    cases hget
    rw [solo_bind] at h3
    obtain ⟨r1, s2, t3, t4, hout, h4, rfl⟩ := bind_ok h3
    obtain ⟨hsteps, hstay, hret⟩ := swapPageOutC_steps lossy (hscan.settled hidle).1 (fun hl =>
        ⟨(hfine hl).1.of_eq rfl rfl rfl, (hfine hl).2⟩) hout
    by_cases hr : r1 = 0
    · rw [if_neg (not_not.mpr hr)] at h4
      obtain ⟨u, s3, _, t5, hcount, hpure, rfl⟩ := atomic_bind_ok h4
      cases hpure
      obtain ⟨idx', p, hentry, howner⟩ := hret hr
      obtain rfl := getFrameEntry_index hentry
      simp only [countEviction, modify_run, howner, Except.ok.injEq, Prod.mk.injEq] at hcount
      obtain ⟨-, rfl, -⟩ := hcount
      exact ⟨hscan.trans (hsteps.trans (steps_minor rfl rfl)), hstay⟩
    · rw [if_pos hr] at h4
      obtain ⟨u, s3, _, t5, hlog, hpure, rfl⟩ := atomic_bind_ok h4
      cases hlog
      cases hpure
      exact ⟨hscan.trans (hsteps.trans (steps_minor rfl rfl)), hstay⟩

theorem kallocOrEvictC_steps (hidle : Idle s) (hfine : ¬ lossy →
      (∀ s1 m, kalloc s = .ok (none, s1, m) → Stocked s1) ∧ s.raidMode = .raid0)
    (h : (kallocOrEvictC t).solo s = .ok (r, s', n)) :
    SwapSteps lossy t s n s' ∧ EntriesStay s s' := by
  unfold kallocOrEvictC at h
  obtain ⟨pa?, s1, m, hk, h1⟩ := quiet_bind_ok h
  have hled := (ledger_kalloc hk).1
  have hkept : SwapSteps lossy t s [] s1 := .single (.aside hled fun m hm => nomatch hm)
  have hstay1 : EntriesStay s s1 := .of_table (congrArg Ledger.table hled)
  cases pa? with
  | some pa =>
    cases h1
    exact ⟨hkept, hstay1⟩
  | none =>
    obtain ⟨hidle1, hmode⟩ := hkept.settled hidle
    obtain ⟨hsteps, hstay⟩ := evictPageC_steps lossy hidle1
      (fun hl => ⟨(hfine hl).1 _ _ hk, hmode.trans (hfine hl).2⟩) h1
    refine ⟨hkept.trans hsteps, fun i hi => ?_⟩
    rw [hstay i (by rw [hstay1 i hi]; exact hi), hstay1 i hi]

-- ======== swap in

/-- The end of `swap_page_in`, once the entry is cleared. -/
theorem mapBack_steps {own : Nat} {r : Int} (h : (do
      let root ← quiet (pagetableOf t)
      let c ← quiet (mappages root va pgsize pa (pteW ||| pteU ||| pteR))
      if c ≠ 0 then do
        logged (kfree pa) fun _ => [.freed t pa]
        return (-1 : Int)
      else do
        let _ ← logged (registerFrame t va pa) fun r => r.toList.map (.registered t)
        logged (countSwapIn t) fun _ => [.swappedIn t, .returned t own]
        return 0 : C Int).solo s = .ok (r, s', n)) :
    SwapSteps lossy t s n s' := by
  obtain ⟨root, s1, _, hpt, h1⟩ := quiet_bind_ok h
  obtain ⟨rfl, -, -⟩ := pagetableOf_ok hpt
  obtain ⟨c, s2, _, hmap, h2⟩ := quiet_bind_ok h1
  have hled : s2.ledger = s1.ledger := ((beside_mappages ..).comp Kernel.ledger) hmap
  by_cases hc : c = 0
  · rw [if_neg (not_not.mpr hc)] at h2
    obtain ⟨idx?, s3, _, t3, hreg, h3, rfl⟩ := atomic_bind_ok h2
    obtain ⟨u, s4, _, t4, hcount, hret, rfl⟩ := atomic_bind_ok h3
    cases hcount
    cases hret
    have hled3 : s3.ledger = s1.ledger :=
      (keeps_registerFrame (f := Kernel.ledger) (fun _ _ => rfl) t va pa hreg).trans hled
    refine (steps_minors hled3 fun _ => rfl).trans (.single (.aside rfl fun m hm => ?_))
    simp only [List.map_cons, List.map_nil, List.append_nil, List.mem_cons, List.not_mem_nil,
      or_false] at hm
    rcases hm with rfl | rfl <;> rfl
  · rw [if_pos hc] at h2
    obtain ⟨u, s3, _, t3, hf, hret, rfl⟩ := atomic_bind_ok h2
    cases hret
    exact steps_minor ((ledger_kfree hf).1.trans hled) rfl

/-- `swap_page_in` gives up before its request, after it, or succeeds; in
between it may have evicted a page. -/
theorem swapPageInC_steps {r : Int} (hidle : Idle s) (hfine : ¬ lossy →
      (∀ s1 m, kalloc s = .ok (none, s1, m) → Stocked s1) ∧ s.raidMode = .raid0)
    (h : (swapPageInC t va).solo s = .ok (r, s', n)) :
    SwapSteps lossy t s n s' := by
  unfold swapPageInC at h
  obtain ⟨_, _, _, t1, hget, h1, rfl⟩ := atomic_bind_ok h
  cases hget
  refine (steps_minors rfl fun _ => rfl).trans ?_
  cases hslot : s.swapSlotOf t va with
  | none =>
    rw [hslot] at h1
    cases h1
    exact .refl s
  | some slot =>
    rw [hslot] at h1
    dsimp only at h1
    rw [solo_bind] at h1
    obtain ⟨pa?, s1, t2, t3, hk, h2, rfl⟩ := bind_ok h1
    obtain ⟨hsteps, hstay⟩ := kallocOrEvictC_steps lossy hidle hfine hk
    refine hsteps.trans ?_
    have hidle1 := (hsteps.settled hidle).1
    obtain ⟨huse, howner, hvaddr⟩ := swapSlotOf_spec hslot
    have hsame := hstay slot huse
    cases pa? with
    | none =>
      obtain ⟨u, s2, _, t4, hlog, hret, rfl⟩ := atomic_bind_ok h2
      cases hlog
      cases hret
      exact steps_minor rfl rfl
    | some pa =>
      dsimp only at h2
      rw [solo_bind] at h2
      obtain ⟨own?, s2, t4, t5, hsub, h3, rfl⟩ := bind_ok h2
      rw [← hsame] at hsub
      obtain ⟨-, ⟨rfl, hn, hled2, -⟩ | ⟨own, rfl, hh⟩⟩ := submitRequestC_ok hidle1 hsub
      · obtain ⟨u, s3, _, t6, hf, hret, rfl⟩ := atomic_bind_ok h3
        cases hret
        refine (Steps.single (.aside hled2 hn)).trans ?_
        exact (steps_minor (ledger_kfree hf).1 rfl).trans (steps_minor rfl rfl)
      · obtain ⟨u, s3, _, t6, hclr, h4, rfl⟩ := atomic_bind_ok h3
        simp only [clearSwap, modify_run, Except.ok.injEq, Prod.mk.injEq] at hclr
        obtain ⟨-, hs3, -⟩ := hclr
        have hfetch : SwapMove lossy t s1 (t4 ++ [(.cleared t slot va, s3)]) s3 := by
          refine .fetch (by simpa using firstIndex_lt _ hslot) (by rw [hsame]; exact huse)
            (by rw [hsame]; exact howner) (by rw [hsame]; exact hvaddr) hh ?_
          have htable : s2.swapDiskTable = s1.swapDiskTable := congrArg Ledger.table hh.ledger
          rw [← hs3, ← hh.ledger, ← htable]
          rfl
        have hrest := mapBack_steps lossy h4
        have hall := (Steps.single hfetch).trans hrest
        rw [List.append_assoc] at hall
        exact hall

end calls

-- ======== runs

/-- No block is lost in the call: wherever it allocates the page of a
`DISK_WRITE` request, it gets one, and RAID 0 has a place for every
block. -/
def SwapCall.Lossless : SwapCall → Kernel → Prop
  | .swapPageOut .., s | .evictPage _, s => Stocked s ∧ s.raidMode = .raid0
  | .swapPageIn .., s =>
    (∀ s1 m, kalloc s = .ok (none, s1, m) → Stocked s1) ∧ s.raidMode = .raid0
  | .setdisksched _, _ | .setRaidMode _, _ => True

variable {n : Notes Event Kernel} {s : Kernel}

/-- A call is a sequence of moves, or a change of the RAID mode. -/
theorem SwapCall.effect {lossy : Prop} {c : SwapCall} {s' : Kernel}
    (hidle : Idle s) (hfine : ¬ lossy → c.Lossless s) (h : c.prog s = .ok ((), s', n)) :
    (∃ t, SwapSteps lossy t s n s') ∨ ∃ mode, c = .setRaidMode mode ∧ n = []
        ∧ s' = after (GemOS.setRaidMode mode) s := by
  cases c with
  | swapPageOut t pa =>
    obtain ⟨r, s1, t1, t2, hrun, hret, rfl⟩ := bind_ok h
    cases hret
    rw [List.append_nil]
    exact .inl ⟨t, (swapPageOutC_steps lossy hidle hfine hrun).1⟩
  | swapPageIn t va =>
    obtain ⟨r, s1, t1, t2, hrun, hret, rfl⟩ := bind_ok h
    cases hret
    rw [List.append_nil]
    exact .inl ⟨t, swapPageInC_steps lossy hidle hfine hrun⟩
  | evictPage t =>
    obtain ⟨r, s1, t1, t2, hrun, hret, rfl⟩ := bind_ok h
    cases hret
    rw [List.append_nil]
    exact .inl ⟨t, (evictPageC_steps lossy hidle hfine hrun).1⟩
  | setdisksched policy =>
    obtain ⟨r, s1, t1, t2, hrun, hret, rfl⟩ := bind_ok h
    obtain ⟨rfl, m, hset⟩ := relabel_ok hrun
    cases hret
    refine .inl ⟨0, .single (.aside ?_ fun m hm => nomatch hm)⟩
    unfold GemOS.setdisksched at hset
    split at hset
    · cases hset
      rfl
    split at hset <;> cases hset <;> rfl
  | setRaidMode mode =>
    rw [SwapCall.prog] at h
    obtain ⟨rfl, m, hset⟩ := relabel_ok h
    cases hset
    exact .inr ⟨mode, rfl, rfl, rfl⟩

/-- An invariant of the runs: kept by every move, by the changes of the
RAID mode that the condition allows, and by the rest of the kernel. -/
theorem SwapRun.keeps (lossy : Prop) {init : Kernel → Prop} {world : Kernel → Kernel → Prop}
    {cond : SwapCall → Notes Event Kernel → Kernel → Prop} {I : Notes Event Kernel → Kernel → Prop}
    (hinit : ∀ s, init s → Idle s ∧ I [] s) (hfine : ∀ c h s, ¬ lossy → cond c h s → c.Lossless s)
    (hmove : ∀ t h s n s', I h s → SwapMove lossy t s n s' → I (h ++ n) s')
    (hmode : ∀ mode h s, I h s → cond (.setRaidMode mode) h s → I h (after (setRaidMode mode) s))
    (hworld : ∀ h s s', I h s → world s s' → Apart s s' ∧ I h s')
    (hr : Course init world SwapCall.prog cond n s) : Idle s ∧ I n s := by
  refine Course.invariant (I := fun n s => Idle s ∧ I n s) hinit ?_ ?_ hr
  · rintro c h t s s' ⟨hidle, hI⟩ hc hrun
    rcases SwapCall.effect hidle (fun hl => hfine c h s hl hc) hrun with
      ⟨u, hsteps⟩ | ⟨mode, rfl, rfl, rfl⟩
    · exact ⟨(hsteps.settled hidle).1, hsteps.keeps (fun h s n s' => hmove u h s n s') hI⟩
    · rw [List.append_nil]
      refine ⟨?_, hmode mode h s hI hc⟩
      refine idle_iff.mpr ?_
      obtain ⟨hhead, htail⟩ := idle_iff.mp hidle
      simp only [after, setRaidMode, modify_run]
      split
      · exact ⟨hhead, htail⟩
      split
      · exact ⟨hhead, htail⟩
      split <;> exact ⟨hhead, htail⟩
  · rintro h s s' ⟨hidle, hI⟩ hw
    obtain ⟨hhead, htail⟩ := idle_iff.mp hidle
    obtain ⟨hap, hI'⟩ := hworld h s s' hI hw
    exact ⟨idle_iff.mpr ⟨hap.head.trans hhead, hap.tail.trans htail⟩, hI'⟩

end GemOS
