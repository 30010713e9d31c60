/-
The swap table along every run.

Under `SwapsKept` the swap table and the page tables agree in every state
reached. The condition speaks of the entries in use at each step of a
run; `Noted` bounds these by the swap-outs so far, which is how a given
run is seen to meet it.
-/
import GemOS.Proofs.PagesExclusive
import GemOS.Proofs.SwapTable

namespace GemOS

open Prog Conc

variable {n : Notes Mark Kernel} {s : Kernel} {g : Ghost}

-- ======== the runs

/-- The invariant of the swap table is one of the page machine. -/
theorem swapTracked_kept : Kept SwapsKept SwapTracked where
  own h := h.own
  move h m hkept := h.move m hkept
  accurate _ _ hkept := hkept

/-- No slot is in use at the start. -/
theorem Booted.swapTracked (h : Booted s) : SwapTracked .empty [] s := by
  have hfree : ∀ i, (s.swapDiskTable i).inUse = false := by
    intro i
    rw [h.swaps]
    rfl
  have hno : ∀ {i p va}, ¬ SwapEntry s i p va := fun hi => absurd ((hfree _).symm.trans hi.1) nofun
  refine ⟨h.own, fun i hi => absurd ((hfree i).symm.trans hi) nofun,
    fun i hi => absurd ((hfree i).symm.trans hi) nofun, ?_, ?_,
    fun _ _ _ _ hi => absurd hi hno, fun _ _ _ hi => absurd hi hno, .nil⟩
  · rintro p va (⟨i, hi⟩ | hp)
    · exact absurd hi hno
    · cases hp
  · intro root v hsw
    rw [h.pagetables] at hsw
    exact absurd hsw not_isSwapped_zero

theorem Runs.swapTracked (h : Runs SwapsKept n s) : SwapTracked .empty n s :=
  swapTracked_kept.runs (fun _ hb => hb.swapTracked) h

/-- As long as nothing is mapped over a swapped-out page and no address
space that has one there is cut back, replaced or dismantled, the swap
table and the page tables agree, and every swap-in is of the page that
the process itself had swapped out. -/
theorem swap_table_consistent (h : Runs SwapsKept n s) :
    SwapTableConsistent s ∧ Traced SwapInOwn n := by
  have htr := h.swapTracked
  have hlive : ∀ {p root}, Attached .empty s p root → (s.proc p).state ≠ .unused := fun hp =>
    (htr.own.procs _ hp.1).state_ne hp.2
  refine ⟨⟨fun i hi => ?_, fun p root v _ hpt hsw => ?_, htr.unique⟩, htr.trace⟩
  · obtain ⟨p, va, hentry⟩ := htr.owner i hi
    obtain ⟨root, v, hva, ho⟩ := htr.out p va (.inl ⟨i, hentry⟩)
    have hvaddr := hentry.2.2
    refine ⟨p, root, ⟨hentry.1, hentry.2.1, rfl⟩, hlive ho.attached, ho.attached.2, ?_⟩
    unfold Kernel.pte
    rw [hvaddr, hva, vpn_mul]
    exact ho.pte
  · obtain ⟨q, hq, ⟨i, hi⟩ | hpe⟩ := htr.listed root v hsw
    · obtain rfl := htr.own.apart q p root hq ⟨nofun, hpt⟩
      exact ⟨i, htr.bound i hi.1, hi⟩
    · cases hpe

-- ======== entries' origin

/-- Every entry in use was written by a swap-out among the notes. -/
def EntriesNoted (n : Notes Mark Kernel) (s : Kernel) : Prop :=
  ∀ i p va, SwapEntry s i p va → ∃ idx s1, (Mark.swapOut idx, s1) ∈ n
    ∧ (s1.frameTable idx).vaddr = va

/-- Also at every note, from those before it. -/
structure Noted (g : Ghost) (n : Notes Mark Kernel) (s : Kernel) : Prop where
  own : Own g s
  now : EntriesNoted n s
  past : Traced (fun a x => EntriesNoted (a ++ [x]) x.2) n

variable {s' : Kernel} {t : Notes Mark Kernel} {g' : Ghost}

theorem EntriesNoted.append (h : EntriesNoted n s)
    (hent : ∀ i p va, SwapEntry s' i p va → SwapEntry s i p va) : EntriesNoted (n ++ t) s' := by
  intro i p va hi
  obtain ⟨idx, s1, hin, hva⟩ := h i p va (hent i p va hi)
  exact ⟨idx, s1, List.mem_append_left t hin, hva⟩

/-- Entries may go without a note. -/
theorem Noted.fewer (h : Noted g n s) (hown : Own g' s')
    (hent : ∀ i p va, SwapEntry s' i p va → SwapEntry s i p va) : Noted g' (n ++ []) s' := by
  refine ⟨hown, h.now.append hent, ?_⟩
  rw [List.append_nil]
  exact h.past

theorem Noted.quiet (h : Noted g n s) (hown : Own g' s')
    (hswaps : s'.swapDiskTable = s.swapDiskTable) : Noted g' (n ++ []) s' :=
  h.fewer hown fun _ _ _ => (SwapEntry.congr hswaps).mp

/-- A note about something else. -/
theorem Noted.step {k : Mark} (h : Noted g n s) (hown : Own g' s')
    (hswaps : s'.swapDiskTable = s.swapDiskTable) : Noted g' (n ++ [(k, s)]) s' := by
  refine ⟨hown, h.now.append fun _ _ _ => (SwapEntry.congr hswaps).mp, ?_⟩
  exact h.past.snoc (h.now.append fun _ _ _ => id)

/-- Only a swap-out makes an entry, and it is noted. -/
theorem Noted.move (h : Noted g n s) (m : Move g s t g' s') : Noted g' (n ++ t) s' := by
  have hown := h.own.move m
  cases m with
  | aside ha => exact h.quiet hown ha.swaps
  | @bring p root va pa perm _ f =>
    refine h.step hown ?_
    obtain ⟨frames, hs⟩ := Kernel.registered_shape
      (s.setLeaf root va (pa2pte pa ||| perm ||| pteV)) p va pa
    unfold Kernel.brought
    rw [hs]
    rfl
  | @swapOut p root idx slot block f =>
    have hnow : EntriesNoted (n ++ [(.swapOut idx, s.recorded idx slot block)])
        (s.recorded idx slot block) := by
      intro i q a hi
      rcases swapEntry_setSwap.mp hi with ⟨-, -, -, hva⟩ | ⟨-, hold⟩
      · exact ⟨idx, _, List.mem_append_right n (List.mem_singleton_self _), hva⟩
      · obtain ⟨j, s1, hin, hva⟩ := h.now i q a hold
        exact ⟨j, s1, List.mem_append_left _ hin, hva⟩
    exact ⟨hown, hnow, h.past.snoc hnow⟩
  | unswap _ _ _ _ => grind [h.fewer, swapEntry_setSwap]
  | map | unmap | mapFixed | unmapFixed | commit | reap | shrink => exact h.step hown rfl
  | destroy _ =>
    unfold Kernel.freedTable at hown ⊢
    exact h.quiet hown rfl
  | _ => exact h.quiet hown rfl

theorem noted_kept : Kept EntriesAccurate Noted where
  own h := h.own
  move h m _ := h.move m
  accurate _ _ hkept := hkept

theorem Runs.noted (h : Runs EntriesAccurate n s) : Noted .empty n s := by
  refine noted_kept.runs (fun s hb => ⟨hb.own, fun i p va hi => ?_, .nil⟩) h
  rw [SwapEntry, hb.swaps] at hi
  exact absurd hi.1 nofun

/-- A check of `SwapsKept` on a note and those before it, for runs in
which no address space is cut back, replaced or dismantled. -/
def swapsKept (a : Notes Mark Kernel) (x : Mark × Kernel) : Bool :=
  match x.1 with
  | .swapOut _ => entriesAccurate x.1 x.2
  | .map _ va => a.all fun y =>
    match y.1 with
    | .swapOut idx => (y.2.frameTable idx).vaddr != va
    | _ => true
  | .unmap .. => true
  | _ => false

/-- The check at every note. -/
def swapsKeptAll (n : Notes Mark Kernel) : Bool :=
  (List.range n.length).all fun k =>
    match n[k]? with
    | some x => swapsKept (n.take k) x
    | none => true

/-- The condition of the runs can be evaluated. -/
theorem swapsKept_of_check (hc : swapsKeptAll n = true)
    (hpast : Traced (fun a x => EntriesNoted (a ++ [x]) x.2) n) : ∀ x ∈ n, SwapsKept x.1 x.2 := by
  intro x hx
  obtain ⟨a, b, rfl⟩ := List.append_of_mem hx
  have hcheck : swapsKept a x = true := by
    have hlen : a.length < (a ++ x :: b).length := by
      rw [List.length_append, List.length_cons]
      omega
    have hk := List.all_eq_true.mp hc a.length (List.mem_range.mpr hlen)
    rw [List.getElem?_append_right (Nat.le_refl _), Nat.sub_self, List.take_left] at hk
    exact hk
  obtain ⟨k, s⟩ := x
  cases k with
  | swapOut idx => exact entriesAccurate_of_check (.swapOut idx) s hcheck
  | map root va =>
    intro i p hi _
    obtain ⟨idx, s1, hin, hva⟩ := hpast a _ b rfl i p va hi
    rcases List.mem_append.mp hin with hin | hin
    · have hne := List.all_eq_true.mp hcheck _ hin
      simp only [bne_iff_ne] at hne
      exact hne hva
    · cases List.mem_singleton.mp hin
  | unmap root va => trivial
  | shrink p lo | commit p | reap p => cases hcheck

/-- The first process touches one of two pages, and the other one when no
page is free: the first is swapped out, and nothing but that. -/
def evictPage0 : List Op :=
  [.userinit, .schedule 0 .running 3, .sbrk 0 0x2000 false, .fault 0 0, .script shortage]

/-- A run with an eviction. -/
theorem swap_table_consistent_evicted : ∃ n s, Runs SwapsKept n s ∧ SwapEntry s 0 0 0
      ∧ SwapTableConsistent s ∧ Traced SwapInOwn n := by
  obtain ⟨n, s, hplay, hacc, hswaps, hentry⟩ := played
    (o := playEvict evictPage0 0 0x1000 4 [] smallBoot)
    (P := fun n s => n.all (fun x => entriesAccurate x.1 x.2) = true ∧ swapsKeptAll n = true
      ∧ (s.swapDiskTable 0).inUse = true ∧ (s.swapDiskTable 0).owner = some 0
      ∧ (s.swapDiskTable 0).vaddr = 0) (by decide +kernel)
  have hnoted : Noted .empty n s := Runs.noted (Runs.playEvict smallBoot_booted hplay fun x hx =>
      entriesAccurate_of_check _ _ (List.all_eq_true.mp hacc x hx))
  have hr : Runs SwapsKept n s :=
    Runs.playEvict smallBoot_booted hplay (swapsKept_of_check hswaps hnoted.past)
  exact ⟨n, s, hr, hentry, swap_table_consistent hr⟩

/-- The process then gives both pages back and grows again: its first page
is mapped, and the entry for the page that was there before is still in
use. -/
theorem swap_table_stale : ∃ n s, Runs (fun _ _ => True) n s ∧ SwapEntry s 0 0 0
      ∧ isV (s.procPte 0 0) = true ∧ ¬ SwapTableConsistent s := by
  obtain ⟨n, s, hplay, huse, howner, hva, hV⟩ := played
    (o := playEvict evictPage0 0 0x1000 4 [.sbrk 0 (-0x2000) true, .sbrk 0 0x1000 true] smallBoot)
    (P := fun _ s => (s.swapDiskTable 0).inUse = true ∧ (s.swapDiskTable 0).owner = some 0
      ∧ (s.swapDiskTable 0).vaddr = 0 ∧ isV (s.procPte 0 0) = true) (by decide +kernel)
  refine ⟨n, s, Runs.playEvict smallBoot_booted hplay fun _ _ => trivial,
    ⟨huse, howner, hva⟩, hV, fun hcon => ?_⟩
  obtain ⟨p, root, hentry, -, hpt, hsw⟩ := hcon.owned 0 huse
  obtain rfl := Option.some.inj (howner.symm.trans hentry.2.1)
  rw [hva] at hsw
  rw [Kernel.procPte, hpt] at hV
  exact absurd (hV.symm.trans hsw.2) nofun

end GemOS
