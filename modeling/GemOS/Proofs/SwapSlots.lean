/-
Swap slots under concurrency: when the entries of the swap table survive
other calls.

`swap_page_out` picks a free slot in one critical section and marks it in
a later one. In between the slot is free as far as the table goes, so
another call can pick it too, and the call that marks it last overwrites
the entry of the other. `SlotsFresh` rules that out: a search runs only
when every slot picked by another call and not yet marked has a free slot
below it.

# The invariant

The table is what the log says (`replay`); a slot in hand is free and in
one hand only; an entry about to be cleared is in use and belongs to the
process that is about to clear it. Each record therefore goes to a slot
that is not in use, and each clear removes the entry of its own process.
-/
import Mathlib.Data.List.Induction
import GemOS.Proofs.Evict
import GemOS.Proofs.Interleave

namespace GemOS

open Function Prog Conc

-- ======== replay

/-- The swap table after an event. -/
def Event.store (table : Nat → SwapDiskEntry) : Event → Nat → SwapDiskEntry
  | .recorded _ slot e => update table slot e
  | .cleared _ slot _ => update table slot (table slot).cleared
  | _ => table

/-- The swap table after the events of a log. -/
def replay (table : Nat → SwapDiskEntry) (log : List Event) :
    Nat → SwapDiskEntry := log.foldl Event.store table

theorem replay_append (table : Nat → SwapDiskEntry) (log evs : List Event) :
    replay table (log ++ evs) = evs.foldl Event.store (replay table log) :=
  List.foldl_append ..

/-- A record goes to a slot not in use, a clear to an entry of its
process, and who has swapped out a page has recorded the entry of its
frame. -/
def SlotTrace (table : Nat → SwapDiskEntry) (log : List Event) : Event → Prop
  | .recorded _ slot e =>
    e.inUse = true ∧ (replay table log slot).inUse = false
  | .cleared t slot va => (replay table log slot).owner = some t
      ∧ (replay table log slot).vaddr = va
  | .swappedOut t f block e =>
    EntryFor f block e ∧ ∃ slot, Event.recorded t slot e ∈ log
  | _ => True

/-- The entry `e` of `slot` is cleared in `b`, by its owner's
`swap_page_in` of that page. -/
def ClearedIn (b : List Event) (slot : Nat) (e : SwapDiskEntry) : Prop :=
  ∃ u, e.owner = some u ∧ Event.cleared u slot e.vaddr ∈ b

/-- An entry stays until its owner clears it. -/
theorem entry_kept {table : Nat → SwapDiskEntry} {a b : List Event}
    {slot : Nat} (h : Traced (SlotTrace table) (a ++ b))
    (huse : (replay table a slot).inUse = true) :
    ClearedIn b slot (replay table a slot) ∨ replay table (a ++ b) slot = replay table a slot := by
  induction b using List.reverseRecOn with
  | nil => exact .inr (by rw [List.append_nil])
  | append_singleton b e ih =>
    rw [← List.append_assoc] at h ⊢
    rcases ih h.of_append with ⟨u, hu, hmem⟩ | hsame
    · exact .inl ⟨u, hu, List.mem_append_left _ hmem⟩
    have he : SlotTrace table (a ++ b) e := h (a ++ b) e [] rfl
    rw [replay_append]
    cases e with
    | recorded t i e =>
      by_cases hi : i = slot
      · subst hi
        have hfree := he.2
        rw [hsame, huse] at hfree
        cases hfree
      · exact .inr ((update_of_ne (Ne.symm hi) ..).trans hsame)
    | cleared t i va =>
      by_cases hi : i = slot
      · subst hi
        obtain ⟨howner, hva⟩ := he
        rw [hsame] at howner hva
        exact .inl ⟨t, howner, by rw [hva]; simp⟩
      · exact .inr ((update_of_ne (Ne.symm hi) ..).trans hsame)
    | _ => exact .inr hsame

-- ======== invariant

/-- What a process has in hand, from the common log. -/
abbrev claims (log : List Event) (t : ProcId) : Option Nat :=
  claimed (mine Event.thread t log)

abbrev pins (log : List Event) (t : ProcId) : Option (Nat × Nat) :=
  pinned (mine Event.thread t log)

/-- Every search finds the slots in other hands behind a free one. -/
def SlotsFresh : ProcId → Section → Kernel → List Event → Prop
  | t, .search, s, log => ∀ u slot, u ≠ t → claims log u = some slot →
      ∃ j < slot, (s.swapDiskTable j).inUse = false
  | _, _, _, _ => True

/-- The invariant of the module comment. -/
structure SlotInv (table : Nat → SwapDiskEntry) (s : Kernel) (log : List Event) : Prop where
  store : s.swapDiskTable = replay table log
  free : ∀ t slot, claims log t = some slot → (s.swapDiskTable slot).inUse = false
  apart : ∀ t u slot, claims log t = some slot → claims log u = some slot → t = u
  entry : ∀ t slot va, pins log t = some (slot, va) → (s.swapDiskTable slot).inUse = true
      ∧ (s.swapDiskTable slot).owner = some t
      ∧ (s.swapDiskTable slot).vaddr = va
  trace : Traced (SlotTrace table) log

section step

variable {table : Nat → SwapDiskEntry} {s s' : Kernel} {log evs : List Event} {t : ProcId}

theorem mine_append_self (hown : ∀ e ∈ evs, e.thread = t) :
    mine Event.thread t (log ++ evs) = mine Event.thread t log ++ evs := by
  rw [mine_append, mine_own hown]

theorem mine_append_other {u : ProcId} (hown : ∀ e ∈ evs, e.thread = t) (hu : u ≠ t) :
    mine Event.thread u (log ++ evs) = mine Event.thread u log := by
  rw [mine_append, mine_other hown hu, List.append_nil]

variable (h : SlotInv table s log)

include h

/-- Only the table matters of the state. -/
theorem SlotInv.congr (hstore : s'.swapDiskTable = s.swapDiskTable) : SlotInv table s' log := by
  obtain ⟨h1, h2, h3, h4, h5⟩ := h
  rw [← hstore] at h1 h2 h4
  exact ⟨h1, h2, h3, h4, h5⟩

omit h in
/-- What a process has in hand after its own event `e`, and another after
it. -/
theorem claims_snoc (log : List Event) (e : Event) (u : ProcId) : claims (log ++ [e]) u
      = if u = e.thread then e.claim (claims log u) else claims log u := by
  have hown : ∀ e' ∈ [e], e'.thread = e.thread := by simp
  unfold claims
  split
  · next hu =>
    subst hu
    rw [mine_append_self hown, claimed_append]
    rfl
  · next hu => rw [mine_append_other hown hu]

omit h in
theorem pins_snoc (log : List Event) (e : Event) (u : ProcId) : pins (log ++ [e]) u
      = if u = e.thread then e.pin (pins log u) else pins log u := by
  have hown : ∀ e' ∈ [e], e'.thread = e.thread := by simp
  unfold pins
  split
  · next hu =>
    subst hu
    rw [mine_append_self hown, pinned_append]
    rfl
  · next hu => rw [mine_append_other hown hu]

/-- Events that neither change an entry nor take one in hand. -/
def Event.still : Event → Bool
  | .found .. | .recorded .. | .pinned .. | .cleared .. => false
  | _ => true

theorem SlotInv.still {e : Event}
    (he : e.still = true) (htrace : SlotTrace table log e) : SlotInv table s (log ++ [e]) := by
  have hcl : ∀ u slot, claims (log ++ [e]) u = some slot → claims log u = some slot := by
    intro u slot hu
    rw [claims_snoc] at hu
    split at hu
    · cases e with
      | found | recorded | pinned | cleared => cases he
      | released => cases hu
      | _ => exact hu
    · exact hu
  have hpin : ∀ u x, pins (log ++ [e]) u = some x → pins log u = some x := by
    intro u x hu
    rw [pins_snoc] at hu
    split at hu
    · cases e with
      | found | recorded | pinned | cleared => cases he
      | unpinned => cases hu
      | _ => exact hu
    · exact hu
  refine ⟨?_, fun u slot hu => h.free u slot (hcl u slot hu), ?_,
    fun u slot va hu => h.entry u slot va (hpin u _ hu), h.trace.snoc htrace⟩
  · rw [h.store, replay_append]
    cases e with
    | found | recorded | pinned | cleared => cases he
    | _ => rfl
  · exact fun u v slot hu hv => h.apart u v slot (hcl u slot hu) (hcl v slot hv)

theorem SlotInv.stills (hev : ∀ e ∈ evs, e.still = true ∧ ∀ log, SlotTrace table log e) :
    SlotInv table s (log ++ evs) := by
  induction evs generalizing log with
  | nil => rwa [List.append_nil]
  | cons e evs ih =>
    rw [← List.singleton_append, ← List.append_assoc]
    obtain ⟨he, htrace⟩ := hev e (List.mem_cons_self ..)
    exact ih (h.still he (htrace log)) fun e' he' => hev e' (List.mem_cons_of_mem _ he')

/-- A search that meets the condition takes a slot nobody has in hand. -/
theorem SlotInv.found {slot : Nat} (hslot : s.freeSlot = some slot)
    (hfresh : ∀ u i, u ≠ t → claims log u = some i → ∃ j < i, (s.swapDiskTable j).inUse = false) :
    SlotInv table s (log ++ [.found t slot]) := by
  obtain ⟨hfree, hbelow⟩ := freeSlot_spec hslot
  have hcl : ∀ u i, claims (log ++ [.found t slot]) u = some i →
      (u = t ∧ i = slot) ∨ (u ≠ t ∧ claims log u = some i) := by
    intro u i hu
    rw [claims_snoc] at hu
    split at hu
    · next hut => exact .inl ⟨hut, (Option.some.inj hu).symm⟩
    · next hut => exact .inr ⟨hut, hu⟩
  -- whoever else has a slot in hand has a free one below it
  have hother : ∀ u, u ≠ t → claims log u ≠ some slot := by grind
  refine ⟨?_, ?_, ?_, ?_, h.trace.snoc trivial⟩
  · rw [h.store, replay_append]
    rfl
  · grind [h.free]
  · grind [h.apart]
  · intro u i va hu
    refine h.entry u i va ?_
    rw [pins_snoc] at hu
    split at hu <;> exact hu

/-- Marking the slot in hand. -/
theorem SlotInv.recorded {slot : Nat} {e : SwapDiskEntry}
    (hcl : claims log t = some slot) (huse : e.inUse = true)
    (hstore : s'.swapDiskTable = update s.swapDiskTable slot e) :
    SlotInv table s' (log ++ [.recorded t slot e]) := by
  have hfree := h.free t slot hcl
  have hcl' : ∀ u i, claims (log ++ [.recorded t slot e]) u = some i →
      u ≠ t ∧ claims log u = some i := by
    intro u i hu
    rw [claims_snoc] at hu
    split at hu
    · cases hu
    · next hut => exact ⟨hut, hu⟩
  have hpin : ∀ u x, pins (log ++ [.recorded t slot e]) u = some x → pins log u = some x := by
    intro u x hu
    rw [pins_snoc] at hu
    split at hu <;> exact hu
  refine ⟨?_, ?_, ?_, ?_, h.trace.snoc ⟨huse, ?_⟩⟩
  · rw [hstore, h.store, replay_append]
    rfl
  · intro u i hu
    obtain ⟨hut, hu⟩ := hcl' u i hu
    have hi : i ≠ slot := fun hi => hut (h.apart u t slot (hi ▸ hu) hcl)
    rw [hstore, update_of_ne hi]
    exact h.free u i hu
  · exact fun u v i hu hv => h.apart u v i (hcl' u i hu).2 (hcl' v i hv).2
  · intro u i va hu
    have hentry := h.entry u i va (hpin u _ hu)
    have hi : i ≠ slot := by grind
    rw [hstore, update_of_ne hi]
    exact hentry
  · rw [← h.store]
    exact hfree

/-- Finding the entry of one's own page. -/
theorem SlotInv.pinned {slot va : Nat}
    (hslot : s.swapSlotOf t va = some slot) : SlotInv table s (log ++ [.pinned t slot va]) := by
  have hcl : ∀ u i, claims (log ++ [.pinned t slot va]) u = some i → claims log u = some i := by
    intro u i hu
    rw [claims_snoc] at hu
    split at hu <;> exact hu
  refine ⟨?_, fun u i hu => h.free u i (hcl u i hu),
    fun u v i hu hv => h.apart u v i (hcl u i hu) (hcl v i hv), ?_, h.trace.snoc trivial⟩
  · rw [h.store, replay_append]
    rfl
  · intro u i va' hu
    rw [pins_snoc] at hu
    split at hu
    · next hut =>
      cases hu
      rw [hut]
      exact swapSlotOf_spec hslot
    · exact h.entry u i va' hu

/-- Clearing the entry in hand. -/
theorem SlotInv.cleared {slot va : Nat}
    (hpin : pins log t = some (slot, va)) (hstore : s'.swapDiskTable
      = update s.swapDiskTable slot (s.swapDiskTable slot).cleared) :
    SlotInv table s' (log ++ [.cleared t slot va]) := by
  obtain ⟨huse, howner, hva⟩ := h.entry t slot va hpin
  have hcl : ∀ u i, claims (log ++ [.cleared t slot va]) u = some i → claims log u = some i := by
    intro u i hu
    rw [claims_snoc] at hu
    split at hu <;> exact hu
  refine ⟨?_, ?_, fun u v i hu hv => h.apart u v i (hcl u i hu) (hcl v i hv), ?_, h.trace.snoc ?_⟩
  · rw [hstore, h.store, replay_append]
    rfl
  · intro u i hu
    rw [hstore]
    by_cases hi : i = slot
    · rw [hi, update_self]
      rfl
    · rw [update_of_ne hi]
      exact h.free u i (hcl u i hu)
  · intro u i va' hu
    rw [pins_snoc] at hu
    split at hu
    · cases hu
    · next hut =>
      have hentry := h.entry u i va' hu
      have hi : i ≠ slot := by
        rintro rfl
        exact hut (Option.some.inj (hentry.2.1.symm.trans howner))
      rw [hstore, update_of_ne hi]
      exact hentry
  · rw [SlotTrace, ← h.store]
    exact ⟨howner, hva⟩

end step

theorem slotInv_stable (table : Nat → SwapDiskEntry) : Stable SlotsFresh (SlotInv table) := by
  intro t lbl s s' log evs ha hI hC
  cases ha with
  | aside hstore hev =>
    refine (hI.stills fun e he => ?_).congr hstore
    have hlight := (hev e he).2
    cases e with
    | found | recorded | pinned | cleared | swappedOut => cases hlight
    | _ => exact ⟨rfl, fun _ => trivial⟩
  | search =>
    cases hslot : s.freeSlot with
    | none => exact hI.stills fun e he => nomatch he
    | some slot => exact hI.found hslot hC
  | record hcl huse hstore => exact hI.recorded hcl huse hstore
  | pin va => grind [hI.stills, hI.pinned]
  | clear hpin hstore => exact hI.cleared hpin hstore
  | scan _ hstore =>
    refine (hI.stills fun e he => ?_).congr hstore
    obtain ⟨v, -, rfl⟩ := List.mem_map.mp he
    exact ⟨rfl, fun _ => trivial⟩
  | take _ hstore =>
    refine SlotInv.congr (hI.still rfl ?_) hstore
    trivial
  | @commit _ _ own e _ hclose hstore =>
    have hclosed : SlotInv table s (log ++ [e]) := by
      cases e with
      | swappedOut u f block e =>
        obtain ⟨rfl, hentry, slot, hrec⟩ := hclose
        exact hI.still rfl ⟨hentry, slot, (List.mem_filter.mp hrec).1⟩
      | swappedIn u => exact hI.still rfl trivial
      | _ => exact hclose.elim
    have hret := (hclosed.still (e := .returned t own) rfl trivial).congr hstore
    rw [List.append_assoc] at hret
    exact hret

-- ======== results

/-- No entry is lost: a `swap_page_out` that has returned 0 has recorded
the entry of its frame with its block; an entry in use is only overwritten
once its owner has swapped its page back in, and as long as that has not
happened the table holds it. -/
structure EntriesKept (table : Nat → SwapDiskEntry) (s : Kernel) (log : List Event) : Prop where
  written : ∀ a t f block e b, log = a ++ .swappedOut t f block e :: b →
    EntryFor f block e ∧ ∃ slot, Event.recorded t slot e ∈ a
  initial : ∀ a t slot e b, log = a ++ .recorded t slot e :: b →
    (table slot).inUse = true → ClearedIn a slot (table slot)
  again : ∀ a t slot e b u e' c, log = a ++ .recorded t slot e :: (b ++ .recorded u slot e' :: c) →
    ClearedIn b slot e
  kept : ∀ a t slot e b, log = a ++ .recorded t slot e :: b →
    ClearedIn b slot e ∨ s.swapDiskTable slot = e

/-- In every interleaving in which each search finds the slots picked by
other calls behind a free one, every swapped-out page keeps its entry. -/
theorem swap_entries_kept {s0 : Kernel} {w : KPool} (hr : Interleaved SlotsFresh s0 w) :
    EntriesKept s0.swapDiskTable w.state w.log := by
  have hinv : SlotInv s0.swapDiskTable w.state w.log := by
    refine hr.invariant _ ?_ (fun s s' log hw h => h.congr hw.swapDiskTable) (slotInv_stable _)
    exact ⟨rfl, (fun _ _ h => nomatch h), (fun _ _ _ h => nomatch h),
      (fun _ _ _ h => nomatch h), .nil⟩
  have hput : ∀ a t slot e, replay s0.swapDiskTable (a ++ [.recorded t slot e]) slot = e := by
    intro a t slot e
    rw [replay_append]
    exact update_self ..
  refine ⟨fun a t f block e b hlog => hinv.trace a _ b hlog, ?_, ?_, ?_⟩
  · intro a t slot e b hlog huse
    have hfree := (hinv.trace a _ b hlog).2
    have htrace : Traced (SlotTrace s0.swapDiskTable) ([] ++ a) := by
      rw [hlog] at hinv
      exact hinv.trace.of_append
    rcases entry_kept htrace huse with hcl | hsame
    · exact hcl
    · rw [List.nil_append] at hsame
      rw [hsame, show replay s0.swapDiskTable [] slot = s0.swapDiskTable slot
        from rfl, huse] at hfree
      cases hfree
  · intro a t slot e b u e' c hlog
    have huse := (hinv.trace a _ _ hlog).1
    have hfree := (hinv.trace (a ++ [.recorded t slot e] ++ b)
      (.recorded u slot e') c (by rw [hlog]; simp)).2
    have htrace : Traced (SlotTrace s0.swapDiskTable) (a ++ [.recorded t slot e] ++ b) := by
      grind [Traced.of_append, hinv.trace]
    rcases entry_kept htrace (by rw [hput]; exact huse) with hcl | hsame
    · rwa [hput] at hcl
    · rw [hsame, hput, huse] at hfree
      cases hfree
  · intro a t slot e b hlog
    have huse := (hinv.trace a _ b hlog).1
    have heq : w.log = a ++ [.recorded t slot e] ++ b := by
      rw [hlog]
      simp
    have htrace := hinv.trace
    rw [heq] at htrace
    rw [hinv.store, heq]
    rcases entry_kept htrace (by rw [hput]; exact huse) with hcl | hsame
    · rw [hput] at hcl
      exact .inl hcl
    · rw [hput] at hsame
      exact .inr hsame

/-- A check of `SlotsFresh`: no other process has a slot in hand. -/
def slotsFresh : ProcId → Section → Kernel → List Event → Bool
  | t, .search, _, log => decide (∀ u, u ≠ t → claims log u = none)
  | _, _, _, _ => true

theorem slotsFresh_of_check (t : ProcId) (lbl : Section) (s : Kernel)
    (log : List Event) (h : slotsFresh t lbl s log = true) :
    SlotsFresh t lbl s log := by
  cases lbl with
  | search =>
    intro u slot hu hcl
    have hnone := of_decide_eq_true h u hu
    rw [hcl] at hnone
    cases hnone
  | _ => trivial

/-- Two calls one after the other: each gets a slot of its own. -/
theorem swap_entries_kept_twice : ∃ w, Interleaved SlotsFresh twoProcs w
      ∧ .recorded 0 0 ⟨true, some 0, 0, 0, 0⟩ ∈ w.log
      ∧ .recorded 1 1 ⟨true, some 1, 0, 1, 0⟩ ∈ w.log
      ∧ EntriesKept twoProcs.swapDiskTable w.state w.log := by
  obtain ⟨w, hw, hlog⟩ := twoCalls_run SlotsFresh slotsFresh twoProcs
    (.swapOut 0x80020000) (.swapOut 0x80021000) (List.replicate 11 0 ++ List.replicate 11 1)
    (swapOutEvents 0 0x80028000 0 (frameOf 0) 0 ++ swapOutEvents 1 0x80028000 1 (frameOf 1) 1)
    slotsFresh_of_check (by decide +kernel)
  exact ⟨w, hw, by rw [hlog]; simp [swapOutEvents, frameOf],
    by rw [hlog]; simp [swapOutEvents, frameOf], swap_entries_kept hw⟩

/-- Two calls on different frames: the second runs while the first has
picked slot 0 and not marked it, and its entry is overwritten. -/
theorem swap_entry_overwritten : ∃ w, Interleaved (fun _ _ _ _ => True) twoProcs w
      ∧ ¬ EntriesKept twoProcs.swapDiskTable w.state w.log := by
  obtain ⟨w, hw, hlog⟩ := twoCalls_run (fun _ _ _ _ => True)
    (fun _ _ _ _ => true) twoProcs (.swapOut 0x80020000) (.swapOut 0x80021000)
    (List.replicate 2 0 ++ List.replicate 11 1 ++ List.replicate 9 0)
    ([.found 0 0, .found 1 0, .enqueued 1 0x80028000,
        .taken 1 0x80028000 (some 0x80028000), .served 1 0x80028000, .freed 1 0x80028000]
      ++ .recorded 1 0 ⟨true, some 1, 0, 0, 0⟩
      :: ([.swappedOut 1 (frameOf 1) 0 ⟨true, some 1, 0, 0, 0⟩, .returned 1 0x80028000,
          .enqueued 0 0x80028000, .taken 0 0x80028000 (some 0x80028000), .served 0 0x80028000,
          .freed 0 0x80028000]
        ++ .recorded 0 0 ⟨true, some 0, 0, 1, 0⟩
        :: [.swappedOut 0 (frameOf 0) 1 ⟨true, some 0, 0, 1, 0⟩, .returned 0 0x80028000]))
    (fun _ _ _ _ _ => trivial) (by decide +kernel)
  refine ⟨w, hw, fun hkept => ?_⟩
  obtain ⟨u, -, hmem⟩ := hkept.again _ _ _ _ _ _ _ _ hlog
  simp at hmem

end GemOS
