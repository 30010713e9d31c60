/-
Runs of the system in which a page fault evicts a page.

A scan of the clock makes 32768 rounds before it takes a page that has
been touched, too many to compute. Where one frame only can be evicted
the outcome is known (`clockScan_sole`), and a fault that finds no free
page is the rest of `vmfault` from there on (`fault_evicts`). `playEvict`
runs operations, one such fault and more operations; `Runs.playEvict`
says that this is a run of the system.
-/
import GemOS.Proofs.KeptSystem

namespace GemOS

open Function Prog

-- ======== the scan

/-- One frame can be evicted, it has been touched, and its owner is on the
lowest level: it loses its reference bit in the first sweep and is taken
in the second. -/
theorem clockScan_sole {s : Kernel} {idx : Fin maxFrames} {q : ProcId} (start : Fin maxFrames)
    (hev : (s.frameTable idx).evictable = some q) (href : (s.frameTable idx).refBit = true)
    (hlevel : (s.proc q).level.val = mlfqLevels - 1)
    (hsole : ∀ i < maxFrames, i ≠ idx → (s.frameTable i).evictable = none) :
    ∃ c, s.clockScan start = some c ∧ c.victim = some idx.val ∧ c.hand = idx
      ∧ c.table = update s.frameTable idx { s.frameTable idx with refBit := false } := by
  obtain ⟨c, v, k, hscan, hv, hchoice, hswept, hstops⟩ :=
    clockScan_choice s start ⟨idx, idx.isLt, by rw [hev]; rfl⟩
  obtain rfl : v = idx := by
    by_contra hne
    have hsome := hchoice.evictable
    rw [hsole v hchoice.bound hne] at hsome
    cases hsome
  have hk : k = maxFrames + distance s.clockHand idx := by
    have hturn := hstops q hev
    rw [if_pos hlevel] at hturn
    rw [hturn, turn, if_pos href]
  refine ⟨c, hscan, hv, Fin.ext ?_, funext fun i => ?_⟩
  · have hhand := s.clockHand.isLt
    have hidx := idx.isLt
    rw [hswept.position, hk]
    simp only [distance, maxFrames] at *
    omega
  · by_cases hi : i < maxFrames
    · rw [hswept.passed i hi, if_pos ((distance_lt ..).trans_le (hk ▸ Nat.le_add_right ..))]
      unfold FrameEntry.passed
      by_cases hne : i = idx
      · rw [hne, update_self, hev]
        rfl
      · rw [update_of_ne hne, hsole i hi hne]
        rfl
    · have hne : i ≠ idx := fun heq => hi (heq ▸ idx.isLt)
      rw [update_of_ne hne]
      exact (clockLoop_core _ hscan i).2 (Nat.not_lt.mp hi)

-- ======== the fault

/-- The scan has cleared the bit of frame `idx` and stopped there. -/
def Kernel.swept (s : Kernel) (idx : Fin maxFrames) : Kernel :=
  { s with
    frameTable := update s.frameTable idx { s.frameTable idx with refBit := false }
    clockHand := idx }

/-- The fault of process `p` has been counted and its `kalloc` is about to
look at the free list. -/
def Kernel.faulted (s : Kernel) (p : ProcId) : Kernel :=
  (s.updProc p fun q => { q with pageFaults := q.pageFaults + 1 }).interfered

/-- What is left of a page fault once a page has been found. -/
def faultResume (p : ProcId) (va : Nat) (mem : Option Nat) : K Unit := do
  if (← mapFresh p va mem) ≠ 0 then return ()
  else
    modify fun s => s.updProc p fun q => { q with killed := true }
    kexit p (-1)

/-- Process `p` faults on a page of its own that was never there, no page
is free, and frame `idx` is the only one that can be evicted, touched and
owned by a process on the lowest level. -/
structure Evicts (s : Kernel) (p : ProcId) (root va : Nat) (idx : Fin maxFrames) : Prop where
  running : (s.proc p).state = .running
  table : (s.proc p).pagetable = some root
  size : va < (s.proc p).sz
  align : va % pgsize = 0
  bound : va < maxva
  live : (s.pagetables root).live = true
  mid : ((s.pagetables root).mid (va >>> 21)).isSome
  absent : s.pte root va = 0
  empty : (s.faulted p).freelist = []
  owner : ∃ q, (s.frameTable idx).evictable = some q ∧ (s.proc q).level.val = mlfqLevels - 1
  touched : (s.frameTable idx).refBit = true
  sole : ∀ i < maxFrames, i ≠ idx → (s.frameTable i).evictable = none

/-- Counting the fault changes neither frames nor levels. -/
theorem Kernel.faulted_shape (s : Kernel) (p : ProcId) : (s.faulted p).frameTable = s.frameTable
      ∧ ∀ q, ((s.faulted p).proc q).level = (s.proc q).level := by
  have hlevel := s.updProc_field Proc.level p
    (f := fun q => { q with pageFaults := q.pageFaults + 1 }) rfl
  unfold Kernel.faulted
  obtain ⟨fl, hd, m, e, hs, -⟩ := Kernel.interfered_shape
    (s.updProc p fun q => { q with pageFaults := q.pageFaults + 1 })
  rw [hs]
  exact ⟨rfl, hlevel⟩

variable {idx : Fin maxFrames} {p : ProcId} {root va : Nat} {s : Kernel}

/-- The scan chooses the one frame in use. -/
theorem Evicts.evictPage (h : Evicts s p root va idx) :
    evictPage (s.faulted p) = evictFrame idx ((s.faulted p).swept idx) := by
  obtain ⟨hframes, hlevels⟩ := s.faulted_shape p
  obtain ⟨q, hq, hlevel⟩ := h.owner
  rw [← hframes] at hq
  obtain ⟨c, hscan, hv, hhand, htable⟩ := clockScan_sole (s.faulted p).clockHand hq
    (by rw [hframes]; exact h.touched) (by rw [hlevels]; exact hlevel)
    (by rw [hframes]; exact h.sole)
  unfold GemOS.evictPage readHand selectVictim
  simp only [bind_assoc, get_bind_run, pure_bind, hscan, modify_bind_run, hv, hhand, htable]
  rfl

/-- A fault that evicts goes on from where the scan has stopped. -/
theorem fault_evicts (h : Evicts s p root va idx) : Op.prog (.fault p va) s
      = (evictFrame idx >>= faultResume p va) ((s.faulted p).swept idx) := by
  have hwalk := walk_found false h.bound h.live h.mid
  have hdown : pgrounddown va = va := Nat.div_mul_cancel (Nat.dvd_of_mod_eq_zero h.align)
  have hmapped : ismapped root va s = .ok (false, s, []) := by
    unfold ismapped
    rw [bind_run_quiet hwalk, if_pos rfl, get_bind_run, h.absent]
    rfl
  have halloc : kalloc (s.updProc p fun q =>
      { q with pageFaults := q.pageFaults + 1 })
      = .ok (none, s.faulted p, []) := by
    have hempty := h.empty
    unfold Kernel.faulted at hempty
    rw [kalloc_run, hempty]
    rfl
  have hfault : vmfault p root va s = (do
      let mem ← evictFrame idx
      mapFresh p va mem : K Nat) ((s.faulted p).swept idx) := by
    unfold vmfault
    rw [get_bind_run, if_neg (Nat.not_le.mpr h.size)]
    dsimp only
    rw [hdown, bind_run_quiet hwalk, get_bind_run, if_neg (by simp [h.absent])]
    unfold faultOrTouch
    rw [bind_run_quiet hmapped, if_neg Bool.false_ne_true]
    unfold faultIn countFault kallocOrEvict
    rw [modify_bind_run, bind_assoc, bind_run_quiet halloc]
    exact bind_run_congr _ h.evictPage
  have htrap : usertrapFault p va s
      = (evictFrame idx >>= faultResume p va) ((s.faulted p).swept idx) := by
    unfold usertrapFault
    rw [bind_run_quiet (pagetableOf_run h.table), bind_run_congr _ hfault, bind_assoc]
    rfl
  show whileRunning p (usertrapFault p va) s = _
  unfold whileRunning
  rw [get_bind_run, if_pos h.running, ← htrap]
  exact congrFun (bind_pure_unit) s

-- ======== the run

/-- A check of `Evicts`, on the frames there are. -/
def evictsCheck (s : Kernel) (p : ProcId) (va : Nat) (idx : Fin maxFrames) :
    Bool :=
  match (s.proc p).pagetable, (s.frameTable idx).evictable with
  | some root, some q =>
    (s.proc p).state == .running && decide (va < (s.proc p).sz) && va % pgsize == 0
      && ((s.pagetables root).mid (va >>> 21)).isSome && s.pte root va == 0
      && (s.faulted p).freelist.isEmpty
      && (s.proc q).level.val == mlfqLevels - 1
      && (s.frameTable idx).refBit
      && (List.range ((phystop - s.frameBase) / pgsize + 1)).all fun i =>
        i == idx.val || (s.frameTable i).evictable.isNone
  | _, _ => false

/-- The conditions can be evaluated. -/
theorem Evicts.of_check (hown : Own .empty s)
    (h : evictsCheck s p va idx = true) : ∃ root, Evicts s p root va idx := by
  unfold evictsCheck at h
  split at h
  · next root q hpt hq =>
    simp only [Bool.and_eq_true, beq_iff_eq, decide_eq_true_eq,
      List.isEmpty_iff, List.all_eq_true, List.mem_range, Bool.or_eq_true,
      Option.isNone_iff_eq_none] at h
    obtain ⟨⟨⟨⟨⟨⟨⟨⟨hrun, hsz⟩, halign⟩, hmid⟩, hpte⟩, hempty⟩, hlevel⟩, href⟩, hall⟩ := h
    have hlive := (hown.attached p root ⟨nofun, hpt⟩).1
    have hbound : va < maxva := by
      have := hown.sz p
      simp only [trapframeVa, trampolineVa, maxva, pgsize] at *
      omega
    refine ⟨root, hrun, hpt, hsz, halign, hbound, hlive, hmid, hpte, hempty,
      ⟨q, hq, hlevel⟩, href, fun i _ hne => ?_⟩
    by_cases hlt : i < (phystop - s.frameBase) / pgsize + 1
    · exact (hall i hlt).resolve_left hne
    · -- no frame is registered beyond the end of memory
      unfold FrameEntry.evictable
      refine if_neg fun huse => hlt ?_
      have hhi := (hown.frames i huse).2.2
      unfold Kernel.frameIndexToPa at hhi
      simp only [pgsize] at *
      omega
  · cases h

def Mark.isSwapOut : Mark → Bool
  | .swapOut _ => true
  | _ => false

theorem entriesAccurate_quiet {n : Notes Mark Kernel} (h : n.all (fun x => !x.1.isSwapOut) = true) :
    ∀ x ∈ n, EntriesAccurate x.1 x.2 := by
  intro x hx
  have hno := List.all_eq_true.mp h x hx
  obtain ⟨k, t⟩ := x
  cases k with
  | swapOut idx => cases hno
  | _ => trivial

/-- Operations that swap nothing out, a fault of process `p` at `va` that
evicts frame `idx`, and more operations. -/
def playEvict (pre : List Op) (p : ProcId) (va : Nat) (idx : Fin maxFrames)
    (post : List Op) (s : Kernel) : Option (Notes Mark Kernel × Kernel) :=
  match play (fun _ _ _ => true) Op.prog pre [] s with
  | none => none
  | some (n, s1) =>
    if n.all (fun x => !x.1.isSwapOut) && evictsCheck s1 p va idx then
      match (evictFrame idx >>= faultResume p va) ((s1.faulted p).swept idx) with
      | .error _ => none
      | .ok (_, s2, t) =>
        play (fun _ _ _ => true) Op.prog post (n ++ t) s2
    else none

/-- A run that is played with an eviction in it is a run. -/
theorem Runs.playEvict {G : Mark → Kernel → Prop} {pre post : List Op}
    {s' : Kernel} {n' : Notes Mark Kernel} (hb : Booted s)
    (h : GemOS.playEvict pre p va idx post s = some (n', s'))
    (hG : ∀ x ∈ n', G x.1 x.2) : Runs G n' s' := by
  unfold GemOS.playEvict at h
  split at h
  · cases h
  · next n s1 hpre =>
    split at h
    · next hcheck =>
      rw [Bool.and_eq_true] at hcheck
      split at h
      · cases h
      · next s2 t hfault =>
        obtain ⟨t', ht'⟩ := play_notes h
        have hown : Own .empty s1 := Runs.own
          (Reach.play (.init hb) hpre (entriesAccurate_quiet hcheck.1))
        obtain ⟨root, hev⟩ := Evicts.of_check hown hcheck.2
        have hr : Runs G n s1 := by
          refine Reach.play (.init hb) hpre fun x hx => hG x ?_
          rw [ht']
          exact List.mem_append_left t' (List.mem_append_left t hx)
        refine Reach.play (hr.step (.fault p va)
          ((fault_evicts hev).trans hfault) fun x hx => hG x ?_) h hG
        rw [ht']
        exact List.mem_append_left t' (List.mem_append_right n hx)
    · cases h

/-- A machine with sixteen pages, from the end of the kernel to the end of
memory. -/
def smallBoot : Kernel :=
  .initial 0x87FF0000 0x80001000 ((List.range 16).map fun i => 0x87FF0000 + i * pgsize)

theorem smallBoot_booted : Booted smallBoot :=
  Kernel.initial_booted (by decide) (by decide) (by decide) (by decide)

/-- The rest of the kernel takes all free pages before one `kalloc` and
gives one back before the next. -/
def shortage : List (List EnvOp) :=
  [List.replicate 16 .take, [.give 0x87FFF000]]

end GemOS
