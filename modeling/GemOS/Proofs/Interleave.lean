/-
What a section of the swapping code can do, said once.

`Action t h lbl s s' evs` lists the effects a section of process `t` can
have when the process's own events so far are `h`: everything the results
about interleavings need, and nothing about the programs themselves.
`Call.safe` walks the programs and shows that each of their sections is
an action; `Interleaved.invariant` then reduces a claim about every
interleaving to one step lemma over actions.

# What a process knows

`claimed h` is the slot a process has picked and not yet marked or given
up, `pinned h` the entry its `swap_page_in` is about to clear. Both are
read off its own events, so no other process can falsify them; whether
the slot is still free is another matter.
-/
import GemOS.Kernel.Concurrent
import GemOS.Proofs.Vm

namespace GemOS

open Function Prog Conc

-- ======== own knowledge

/-- The slot in hand after an event. -/
@[simp] def Event.claim (o : Option Nat) : Event → Option Nat
  | .found _ slot => some slot
  | .released _ | .recorded .. => none
  | _ => o

/-- The entry in hand after an event. -/
@[simp] def Event.pin (o : Option (Nat × Nat)) : Event → Option (Nat × Nat)
  | .pinned _ slot va => some (slot, va)
  | .unpinned _ | .cleared .. => none
  | _ => o

/-- The slot a process has picked and not marked yet. -/
def claimed (h : List Event) : Option Nat := h.foldl Event.claim none

/-- The slot and address of the entry a process is about to clear. -/
def pinned (h : List Event) : Option (Nat × Nat) := h.foldl Event.pin none

/-- What a thread has claimed is a fold over its events. -/
@[simp] theorem claimed_append (h evs : List Event) :
    claimed (h ++ evs) = evs.foldl Event.claim (claimed h) :=
  List.foldl_append ..

@[simp] theorem pinned_append (h evs : List Event) :
    pinned (h ++ evs) = evs.foldl Event.pin (pinned h) :=
  List.foldl_append ..

/-- The process has queued `own`, asked the scheduler for a request and
processed the one it got, and has queued nothing since. -/
def Committed (t : ProcId) (h : List Event) (own : Nat) : Prop :=
  ∃ h1 h2 got, h = h1 ++ .enqueued t own :: h2
    ∧ (∀ r, Event.enqueued t r ∉ h2) ∧ Event.taken t own got ∈ h2
    ∧ ∀ g, got = some g → Event.served t g ∈ h2

variable {h : List Event} {t : ProcId} {cond : ProcId → Section → Kernel → List Event → Prop}

theorem Committed.snoc {own : Nat} {e : Event} (hc : Committed t h own)
    (he : ∀ r, e ≠ .enqueued t r) : Committed t (h ++ [e]) own := by
  obtain ⟨h1, h2, got, rfl, hlast, htaken, hserved⟩ := hc
  refine ⟨h1, h2 ++ [e], got, by simp, ?_, List.mem_append_left _ htaken,
    fun g hg => List.mem_append_left _ (hserved g hg)⟩
  intro r hr
  rcases List.mem_append.mp hr with hr | hr
  · exact hlast r hr
  · exact he r (List.mem_singleton.mp hr).symm

-- ======== actions

/-- Events of a section that leaves the swap table alone and on which no
result depends by itself. -/
def Event.light : Event → Bool
  | .released _ | .unpinned _ | .enqueued .. | .served .. | .freed .. | .swappedIn _
  | .evicted .. | .failed _ | .registered .. => true
  | _ => false

/-- What `swap_page_in` leaves of an entry. -/
def SwapDiskEntry.cleared (e : SwapDiskEntry) : SwapDiskEntry :=
  { e with inUse := false, owner := none, vaddr := 0, logicalBlock := -1 }

/-- The entry of a frame with a block. -/
def EntryFor (f : FrameEntry) (block : Int) (e : SwapDiskEntry) : Prop :=
  e.inUse = true ∧ e.owner = f.owner ∧ e.vaddr = f.vaddr ∧ e.logicalBlock = block

/-- What goes with a return 0: a `swap_page_out` has recorded its entry
before. -/
def Event.Closes (t : ProcId) (h : List Event) : Event → Prop
  | .swappedOut u f block e => u = t ∧ EntryFor f block e ∧ ∃ slot, Event.recorded t slot e ∈ h
  | .swappedIn u => u = t
  | _ => False

/-- The effects of a section (module comment). -/
inductive Action (t : ProcId) (h : List Event) : Section → Kernel → Kernel → List Event → Prop
  | aside {s s' : Kernel} {evs : List Event} :
      s'.swapDiskTable = s.swapDiskTable →
      (∀ e ∈ evs, e.thread = t ∧ e.light = true) →
      Action t h .plain s s' evs
  | search {s : Kernel} :
      Action t h .search s s (s.freeSlot.toList.map (.found t))
  | record {s s' : Kernel} {slot : Nat} {e : SwapDiskEntry} :
      claimed h = some slot → e.inUse = true →
      s'.swapDiskTable = update s.swapDiskTable slot e →
      Action t h .plain s s' [.recorded t slot e]
  | pin {s : Kernel} (va : Nat) :
      Action t h .plain s s ((s.swapSlotOf t va).toList.map fun slot => .pinned t slot va)
  | clear {s s' : Kernel} {slot va : Nat} :
      pinned h = some (slot, va) →
      s'.swapDiskTable = update s.swapDiskTable slot (s.swapDiskTable slot).cleared →
      Action t h .plain s s' [.cleared t slot va]
  | scan {s s' : Kernel} {start : Fin maxFrames} {r : Option Nat}
      {n : List (Mark × Kernel)} :
      selectVictim start s = .ok (r, s', n) →
      s'.swapDiskTable = s.swapDiskTable →
      Action t h (.scan start) s s' (r.toList.map (.selected t))
  | take {s s' : Kernel} {own : Nat} {got : Option Nat}
      {n : List (Mark × Kernel)} :
      scheduleNextRequest s = .ok (got, s', n) →
      s'.swapDiskTable = s.swapDiskTable →
      Action t h (.dequeue own) s s' [.taken t own got]
  | commit {s s' : Kernel} {own : Nat} {e : Event} :
      Committed t h own → e.Closes t h → s'.swapDiskTable = s.swapDiskTable →
      Action t h .plain s s' [e, .returned t own]

theorem Event.Closes.thread {e : Event} (he : e.Closes t h) : e.thread = t := by
  cases e with
  | swappedOut => exact he.1
  | swappedIn => exact he
  | _ => exact he.elim

theorem Event.Closes.not_enqueued {e : Event} (he : e.Closes t h) (r : Nat) :
    e ≠ .enqueued t r := by
  rintro rfl
  exact he

/-- The events of a section are those of its thread. -/
theorem Action.own {lbl : Section} {s s' : Kernel} {evs : List Event}
    (ha : Action t h lbl s s' evs) : ∀ e ∈ evs, e.thread = t := by
  cases ha with
  | aside _ hev => exact fun e he => (hev e he).1
  | search | pin va | scan =>
    intro e he
    obtain ⟨x, -, rfl⟩ := List.mem_map.mp he
    rfl
  | record | clear | take =>
    intro e he
    rw [List.mem_singleton.mp he]
    rfl
  | commit _ hclose =>
    intro e' he
    rcases List.mem_cons.mp he with rfl | he
    · exact hclose.thread
    · rw [List.mem_singleton.mp he]
      rfl

-- ======== frames

/-- The part of the state an action may not touch in passing. -/
abbrev KeepsSwaps {α : Type} (x : K α) : Prop := Keeps Kernel.swapDiskTable x

theorem keeps_kalloc : KeepsSwaps kalloc := beside_kalloc.comp Kernel.swapDiskTable

theorem keeps_kfree (pa : Nat) : KeepsSwaps (kfree pa) :=
  (beside_kfree pa).comp Kernel.swapDiskTable

theorem keeps_walk (root va : Nat) (alloc : Bool) : KeepsSwaps (walk root va alloc) :=
  (beside_walk ..).comp Kernel.swapDiskTable

theorem keeps_mappages (root va size pa perm : Nat) : KeepsSwaps (mappages root va size pa perm) :=
  (beside_mappages ..).comp Kernel.swapDiskTable

section fields

-- `f` is any part of the state that the fields written do not reach
variable {γ : Type} {f : Kernel → γ}

theorem keeps_pagetableOf (p : ProcId) : Keeps f (pagetableOf p) := by
  refine .bind .get fun s => ?_
  cases (s.proc p).pagetable with
  | none => exact .fault _
  | some root => exact .pure _

section queue

variable (hf : ∀ (s : Kernel) rq hd tl, f { s with
  requests := rq, diskQueueHead := hd, diskQueueTail := tl } = f s)

include hf

/-- Fields other than those of the queue stay. -/
theorem keeps_enqueueRequest (req : Nat) (type : DiskOp)
    (logicalBlock : Int) (buffer : Nat) (p : Option ProcId) :
    Keeps f (enqueueRequest req type logicalBlock buffer p) := by
  refine .bind .get fun s => ?_
  cases raidMapLogicalToPhysical s.raidMode logicalBlock with
  | none => exact .pure _
  | some loc =>
    refine .bind (.modify fun s => ?_) fun _ => .pure _
    unfold Kernel.enqueue
    cases s.diskQueueTail <;> exact hf s _ _ _

/-- Taking a request off the queue, under either policy. -/
theorem keeps_scheduleNextRequest : Keeps f scheduleNextRequest := by
  refine .bind .get fun s => ?_
  cases s.diskSchedPolicy with
  | fcfs =>
    refine .bind .get fun s => ?_
    cases s.diskQueueHead with
    | none => exact .pure _
    | some req => exact .bind (.modify fun s => hf s s.requests _ _) fun _ => .pure _
  | sstf =>
    refine .bind .get fun s => ?_
    cases s.diskQueueHead with
    | none => exact .pure _
    | some head =>
      dsimp only
      cases s.sstfWalk ramPages none (some head) _ with
      | none => exact .fault _
      | some b =>
        refine .bind (.modify fun s => ?_) fun _ => .pure _
        unfold Kernel.sstfUnlink
        cases b.prevBest <;> exact hf s _ _ _

end queue

theorem keeps_takeSwapBlock (hf : ∀ (s : Kernel) k, f { s with nextSwapBlock := k } = f s) :
    Keeps f takeSwapBlock :=
  .bind .get fun _ => .ite (.pure _) (.bind (.modify fun s => hf s _) fun _ => .pure _)

/-- The clock moves over the frame table only. -/
theorem keeps_selectVictim (hf : ∀ (s : Kernel) frames hand,
    f { s with frameTable := frames, clockHand := hand } = f s)
    (start : Fin maxFrames) : Keeps f (selectVictim start) := by
  refine .bind .get fun s => ?_
  cases s.clockScan start with
  | none => exact .fault _
  | some c =>
    refine .bind (.modify fun s => hf s _ _) fun _ => ?_
    cases c.victim with
    | some idx => exact .pure _
    | none =>
      exact .bind (.modify fun s => hf s s.frameTable _) fun _ => .bind .get fun _ => .pure _

/-- Looking for a PTE changes nothing. -/
theorem keeps_lookup (root va : Nat) : Keeps f (walk root va false) := by
  intro s b s' t h
  rw [(walk_lookup h).1]

theorem keeps_ismapped (root va : Nat) : Keeps f (ismapped root va) :=
  .bind (keeps_lookup ..) fun _ => .ite (.bind .get fun _ => .pure _) (.pure _)

/-- The frame entry and the PTE. -/
theorem keeps_markSwappedOut {idx slot : Nat} (hframe : ∀ s : Kernel, f (s.setFrame idx
      { s.frameTable idx with swapped := true, swapIndex := slot }) = f s)
    (hleaf : ∀ (s : Kernel) root va w, f (s.setLeaf root va w) = f s) :
    Keeps f (markSwappedOut idx slot) := by
  refine .bind (.note _) fun _ => .bind (.modify hframe) fun _ => ?_
  refine .bind .get fun s => ?_
  cases (s.frameTable idx).owner with
  | none => exact .fault _
  | some p =>
    dsimp only
    cases (s.proc p).pagetable with
    | none => exact .fault _
    | some root =>
      exact .bind (keeps_lookup ..) fun _ => .ite (.modify fun s => hleaf s _ _ _) (.pure _)

theorem keeps_registerFrame (hf : ∀ (s : Kernel) frames, f { s with frameTable := frames } = f s)
    (t : ProcId) (va pa : Nat) : Keeps f (registerFrame t va pa) := by
  refine .bind .get fun s => .bind (.modify fun s => ?_) fun _ => .pure _
  obtain ⟨frames, h⟩ := s.registered_shape t va pa
  rw [h]
  exact hf s frames

end fields

theorem keeps_processDiskRequest (req : Nat) : KeepsSwaps (processDiskRequest req) := by
  refine .modify fun s => ?_
  obtain ⟨_, _, _, _, _, _, h, -⟩ := s.processed_shape req
  rw [h]

theorem keeps_countEviction (idx : Nat) : KeepsSwaps (countEviction idx) := by
  refine .modify fun s => ?_
  cases (s.frameTable idx).owner <;> rfl

-- ======== the walk

section walk

variable {cond : ProcId → Section → Kernel → List Event → Prop}
  {inv : Kernel → List Event → Prop} {t : ProcId} {h : List Event}

/-- The step lemma of an invariant: every action keeps it. -/
def Stable (cond : ProcId → Section → Kernel → List Event → Prop)
    (inv : Kernel → List Event → Prop) : Prop :=
  ∀ ⦃t lbl s s' log evs⦄, Action t (mine Event.thread t log) lbl s s' evs →
    inv s log → cond t lbl s log → inv s' (log ++ evs)

/-- A process's program keeps the invariant, whatever the others do. -/
abbrev SafeC {α : Type} (cond : ProcId → Section → Kernel → List Event → Prop)
    (inv : Kernel → List Event → Prop) (t : ProcId) (c : C α)
    (h : List Event) (Q : α → List Event → Prop) : Prop :=
  Safe Event.thread cond inv t c h Q

variable {α : Type} {Q : α → List Event → Prop} {ev : α → List Event} {x : K α}
  (hst : Stable cond inv)

include hst

/-- A section that is an action. -/
theorem safe_atomic {lbl : Section}
    (hx : ∀ s a s' n, x s = .ok (a, s', n) → Action t h lbl s s' (ev a))
    (hQ : ∀ a, Q a (h ++ ev a)) : SafeC cond inv t (atomic lbl x ev) h Q := by
  refine Safe.atomic fun s log hmine hI hC a s' n hrun => ?_
  have ha := hx s a s' n hrun
  refine ⟨ha.own, ?_, hQ a⟩
  subst hmine
  exact hst ha hI hC

theorem safe_logged (hx : KeepsSwaps x) (hev : ∀ a, ∀ e ∈ ev a, e.thread = t ∧ e.light = true)
    (hQ : ∀ a, Q a (h ++ ev a)) : SafeC cond inv t (logged x ev) h Q :=
  safe_atomic hst (fun _ a _ _ hrun => .aside (hx hrun) (hev a)) hQ

/-- A section without an event. -/
theorem safe_quiet (hx : KeepsSwaps x) (hQ : ∀ a, Q a h) : SafeC cond inv t (quiet x) h Q := by
  refine safe_logged hst hx (fun _ e he => nomatch he) fun a => ?_
  rw [List.append_nil]
  exact hQ a

omit hst in
/-- One light event. -/
theorem light_singleton {e : Event} (ht : e.thread = t)
    (hl : e.light = true) : ∀ e' ∈ [e], e'.thread = t ∧ e'.light = true := by
  intro e' he
  rw [List.mem_singleton.mp he]
  exact ⟨ht, hl⟩

theorem safe_light (hx : KeepsSwaps x) {e : Event} (ht : e.thread = t)
    (hl : e.light = true) (hQ : ∀ a, Q a (h ++ [e])) :
    SafeC cond inv t (logged x fun _ => [e]) h Q :=
  safe_logged hst hx (fun _ => light_singleton ht hl) hQ

/-- A request is submitted without touching slot or entry in hand; on
success its own part of the protocol is done. -/
theorem submitRequestC_safe (type : DiskOp)
    (logicalBlock : Int) (buffer : Nat) (p : Option ProcId) :
    SafeC cond inv t (submitRequestC t type logicalBlock buffer p) h
      fun r h' => claimed h' = claimed h ∧ pinned h' = pinned h
        ∧ ∀ own, r = some own → Committed t h' own := by
  refine .bind (safe_quiet hst keeps_kalloc fun r => ?_)
  cases r with
  | none => exact ⟨rfl, rfl, fun _ h => nomatch h⟩
  | some req =>
    refine .bind (safe_logged hst (keeps_enqueueRequest (fun _ _ _ _ => rfl) ..) ?_ fun b => ?_)
    · intro b e he
      cases b with
      | false => cases he
      | true => exact light_singleton rfl rfl e he
    cases b with
    | false =>
      refine .bind (safe_light hst (keeps_kfree _) rfl rfl fun _ => ?_)
      exact ⟨by simp, by simp, fun _ h => nomatch h⟩
    | true =>
      refine .bind (safe_atomic hst (fun s got s' n hrun =>
        .take hrun (keeps_scheduleNextRequest (fun _ _ _ _ => rfl) hrun))
        fun got => ?_)
      simp only [if_true]
      have hnot : ∀ r, Event.enqueued t r ∉ [Event.taken t req got] := by
        intro r hr
        cases List.mem_singleton.mp hr
      cases got with
      | none =>
        refine ⟨by simp, by simp, ?_⟩
        intro own hown
        cases hown
        exact ⟨h, _, none, List.append_assoc .., hnot,
          List.mem_singleton.mpr rfl, fun _ hg => nomatch hg⟩
      | some got =>
        refine .bind (safe_light hst (keeps_processDiskRequest _) rfl rfl fun _ => ?_)
        refine .bind (safe_light hst (keeps_kfree _) rfl rfl fun _ => ?_)
        refine ⟨by simp, by simp, ?_⟩
        intro own hown
        cases hown
        refine ⟨h, [.taken t req (some got), .served t got, .freed t got], some got, by simp, ?_,
          by simp, ?_⟩
        · intro r hr
          simp at hr
        · grind

/-- `swap_page_out` gives back or marks the slot it picks. -/
theorem swapPageOutC_safe (pa : Nat) (hcl : claimed h = none) :
    SafeC cond inv t (swapPageOutC t pa) h
      fun _ h' => claimed h' = none ∧ pinned h' = pinned h := by
  refine .bind (safe_quiet hst .get fun s => ?_)
  cases s.getFrameEntry pa with
  | none => exact ⟨hcl, rfl⟩
  | some idx =>
    dsimp only
    split
    · exact ⟨hcl, rfl⟩
    refine .bind (safe_atomic hst ?_ fun slot? => ?_)
    · intro s r s' n hrun
      cases hrun
      exact .search
    cases slot? with
    | none =>
      show claimed (h ++ []) = none ∧ pinned (h ++ []) = pinned h
      rw [List.append_nil]
      exact ⟨hcl, rfl⟩
    | some slot =>
      refine .bind (safe_logged hst (keeps_takeSwapBlock fun _ _ => rfl) ?_ fun b? => ?_)
      · intro b? e he
        cases b? with
        | none => exact light_singleton rfl rfl e he
        | some b => cases he
      cases b? with
      | none => exact ⟨by simp, by simp⟩
      | some block =>
        refine .bind (safe_quiet hst .get fun s => ?_)
        refine .bind ((submitRequestC_safe hst _ _ _ _).mono ?_)
        rintro r h' ⟨hcl', hpin', hown⟩
        have hslot : claimed h' = some slot := by
          rw [hcl']
          simp
        have hpin : pinned h' = pinned h := by
          rw [hpin']
          simp
        cases r with
        | none =>
          refine .bind (safe_light hst (.pure _) rfl rfl fun _ => ?_)
          exact ⟨by simp, by simp [hpin]⟩
        | some own =>
          -- what the recording section returns is the frame and its entry
          refine .bind (Safe.atomic fun s log hmine hI hC r s' n hrun => ?_)
          cases hrun
          subst hmine
          have hrec : Action t (mine Event.thread t log) .plain s
              (s.setSwap slot (s.swapEntryFor idx block))
              [.recorded t slot (s.swapEntryFor idx block)] := .record hslot rfl rfl
          refine ⟨hrec.own, hst hrec hI hC, .bind (safe_atomic hst ?_ fun _ => ?_)⟩
          · intro s u s' n hrun
            refine .commit ?_ ⟨rfl, ⟨rfl, rfl, rfl, rfl⟩, slot, ?_⟩
              (keeps_markSwappedOut (fun _ => rfl) (fun _ _ _ _ => rfl) hrun)
            · exact (hown own rfl).snoc fun r hr => nomatch hr
            · exact List.mem_append_right _ (List.mem_singleton.mpr rfl)
          exact ⟨by simp, by simp [hpin]⟩

/-- An eviction ends with no slot claimed. -/
theorem evictPageC_safe (hcl : claimed h = none) :
    SafeC cond inv t (evictPageC t) h fun _ h' => claimed h' = none ∧ pinned h' = pinned h := by
  refine .bind (safe_quiet hst (.bind .get fun _ => .pure _) fun start => ?_)
  refine .bind (safe_atomic hst (fun s r s' n hrun =>
    .scan hrun (keeps_selectVictim (fun _ _ _ => rfl) _ hrun)) fun idx? => ?_)
  cases idx? with
  | none =>
    show claimed (h ++ []) = none ∧ pinned (h ++ []) = pinned h
    rw [List.append_nil]
    exact ⟨hcl, rfl⟩
  | some idx =>
    refine .bind (safe_quiet hst .get fun s => ?_)
    have hcl' : claimed (h ++ [.selected t idx]) = none := by
      simp [hcl]
    refine .bind ((swapPageOutC_safe hst _ hcl').mono ?_)
    rintro r h' ⟨hcl', hpin'⟩
    have hpin : pinned h' = pinned h := by
      rw [hpin']
      simp
    split
    · refine .bind (safe_light hst (.pure _) rfl rfl fun _ => ?_)
      exact ⟨by simp [hcl'], by simp [hpin]⟩
    · refine .bind (safe_light hst (keeps_countEviction _) rfl rfl fun _ => ?_)
      exact ⟨by simp [hcl'], by simp [hpin]⟩

theorem kallocOrEvictC_safe (hcl : claimed h = none) :
    SafeC cond inv t (kallocOrEvictC t) h fun _ h' => claimed h' = none ∧ pinned h' = pinned h := by
  refine .bind (safe_quiet hst keeps_kalloc fun r => ?_)
  cases r with
  | none => exact evictPageC_safe hst hcl
  | some pa => exact ⟨hcl, rfl⟩

/-- What a process knows of itself between two calls. -/
def Resting (h : List Event) : Prop := claimed h = none ∧ pinned h = none

omit hst in
theorem Resting.freed (hr : Resting h) (pa : Nat) : Resting (h ++ [.freed t pa]) :=
  ⟨by simp [hr.1], by simp [hr.2]⟩

omit hst in
/-- The events of a registration, and what they leave in hand. -/
theorem registered_light (r : Option Nat) (h : List Event) (hr : Resting h) :
    (∀ e ∈ r.toList.map (Event.registered t), e.thread = t ∧ e.light = true)
      ∧ Resting (h ++ r.toList.map (Event.registered t)) := by
  cases r with
  | none => grind
  | some idx =>
    refine ⟨light_singleton rfl rfl, ?_, ?_⟩
    · simp [hr.1]
    · simp [hr.2]

/-- A swap-in pins its slot, and lets go of it at the end or on every
failure. -/
theorem swapPageInC_safe (va : Nat) (hr : Resting h) :
    SafeC cond inv t (swapPageInC t va) h fun _ => Resting := by
  refine .bind (safe_atomic hst ?_ fun s => ?_)
  · intro s a s' n hrun
    cases hrun
    exact .pin va
  cases s.swapSlotOf t va with
  | none =>
    show Resting (h ++ [])
    rwa [List.append_nil]
  | some slot =>
    have hcl : claimed (h ++ [.pinned t slot va]) = none := by
      simp [hr.1]
    refine .bind ((kallocOrEvictC_safe hst hcl).mono ?_)
    rintro pa? h' ⟨hcl', hpin'⟩
    have hpin : pinned h' = some (slot, va) := by
      rw [hpin']
      simp
    cases pa? with
    | none =>
      refine .bind (safe_light hst (.pure _) rfl rfl fun _ => ?_)
      exact ⟨by simp [hcl'], by simp⟩
    | some newPa =>
      refine .bind ((submitRequestC_safe hst _ _ _ _).mono ?_)
      rintro r h'' ⟨hcl'', hpin'', hown⟩
      rw [hcl'] at hcl''
      rw [hpin] at hpin''
      cases r with
      | none =>
        refine .bind (safe_logged hst (keeps_kfree _) (fun _ e he => ?_) fun _ => ?_)
        · rcases List.mem_cons.mp he with rfl | he
          · exact ⟨rfl, rfl⟩
          · exact light_singleton rfl rfl e he
        exact ⟨by simp [hcl''], by simp⟩
      | some own =>
        refine .bind (safe_atomic hst ?_ fun _ => ?_)
        · intro s u s' n hrun
          cases hrun
          exact .clear hpin'' rfl
        have hown' := (hown own rfl).snoc (e := .cleared t slot va) fun r hr => nomatch hr
        have hrest : Resting (h'' ++ [.cleared t slot va]) := ⟨by simp [hcl''], by simp⟩
        generalize h'' ++ [Event.cleared t slot va] = k at hown' hrest
        refine .bind (safe_quiet hst (keeps_pagetableOf _) fun root => ?_)
        refine .bind (safe_quiet hst (keeps_mappages ..) fun r => ?_)
        split
        · exact .bind (safe_light hst (keeps_kfree _) rfl rfl fun _ => hrest.freed newPa)
        refine .bind (safe_logged hst (keeps_registerFrame (fun _ _ => rfl) ..)
          (fun r => (registered_light r k hrest).1) fun r => ?_)
        have hrest' := (registered_light (t := t) r k hrest).2
        refine .bind (safe_atomic hst ?_ fun _ => ?_)
        · intro s u s' n hrun
          cases hrun
          refine .commit ?_ (e := .swappedIn t) rfl rfl
          cases r with
          | none =>
            show Committed t (k ++ []) own
            rwa [List.append_nil]
          | some idx => exact hown'.snoc fun r hr => nomatch hr
        exact ⟨by rw [claimed_append, hrest'.1]; rfl, by rw [pinned_append, hrest'.2]; rfl⟩

/-- A lazy fault pins nothing. -/
theorem faultInC_safe (va : Nat) (hr : Resting h) :
    SafeC cond inv t (faultInC t va) h fun _ => Resting := by
  refine .bind (safe_quiet hst (.modify fun _ => rfl) fun _ => ?_)
  refine .bind ((kallocOrEvictC_safe hst hr.1).mono ?_)
  rintro pa? h' ⟨hcl, hpin⟩
  have hrest : Resting h' := ⟨hcl, hpin.trans hr.2⟩
  cases pa? with
  | none => exact hrest
  | some mem =>
    refine .bind (safe_quiet hst (.modify fun _ => rfl) fun _ => ?_)
    refine .bind (safe_quiet hst (keeps_pagetableOf _) fun root => ?_)
    refine .bind (safe_quiet hst (keeps_mappages ..) fun r => ?_)
    split
    · exact .bind (safe_light hst (keeps_kfree _) rfl rfl fun _ => hrest.freed mem)
    refine .bind (safe_logged hst (keeps_registerFrame (fun _ _ => rfl) ..)
      (fun r => (registered_light r h' hrest).1) fun r => ?_)
    refine .bind (safe_quiet hst (.modify fun _ => rfl) fun _ => ?_)
    exact (registered_light r h' hrest).2

/-- A fault is a swap-in or a lazy fault, or one after the other. -/
theorem vmfaultC_safe (pagetable va : Nat) (hr : Resting h) :
    SafeC cond inv t (vmfaultC t pagetable va) h fun _ => Resting := by
  have htouch : ∀ va h', Resting h' →
      SafeC cond inv t (faultOrTouchC t pagetable va) h' fun _ => Resting := by
    intro va h' hr'
    refine .bind (safe_quiet hst (keeps_ismapped ..) fun b => ?_)
    split
    · exact .bind (safe_quiet hst (.modify fun _ => rfl) fun _ => hr')
    · exact faultInC_safe hst va hr'
  refine .bind (safe_quiet hst .get fun s => ?_)
  split
  · exact hr
  refine .bind (safe_quiet hst (keeps_walk ..) fun there => ?_)
  refine .bind (safe_quiet hst .get fun s' => ?_)
  dsimp only
  split
  · refine .bind ((swapPageInC_safe hst _ hr).mono fun r h' hr' => ?_)
    split
    · exact .bind (safe_quiet hst (.modify fun _ => rfl) fun _ => hr')
    · exact htouch _ _ hr'
  · exact htouch _ _ hr

/-- Every call keeps to the protocol from rest to rest. -/
theorem Call.safe (c : Call) (hr : Resting h) : SafeC cond inv t (c.prog t) h fun _ => Resting := by
  cases c with
  | swapOut pa =>
    refine .bind ((swapPageOutC_safe hst pa hr.1).mono fun r h' hh => ?_)
    exact ⟨hh.1, hh.2.trans hr.2⟩
  | swapIn va => exact .bind ((swapPageInC_safe hst va hr).mono fun _ _ hh => hh)
  | fault pagetable va => exact .bind ((vmfaultC_safe hst pagetable va hr).mono fun _ _ hh => hh)

end walk

/-- What every action keeps, and the rest of the kernel cannot disturb,
holds throughout every interleaving. -/
theorem Interleaved.invariant {s0 : Kernel} {w : KPool}
    (hr : Interleaved cond s0 w) (inv : Kernel → List Event → Prop) (hinit : inv s0 [])
    (hworld : ∀ s s' log, Outside s s' → inv s log → inv s' log)
    (hst : Stable cond inv) : inv w.state w.log := by
  refine Pool.Reach.safe Event.thread (fun _ => Resting) ?_ hworld ?_ hr
  · rintro w rfl
    exact ⟨hinit, fun _ => ⟨rfl, rfl⟩⟩
  · exact fun t c h hrest => c.safe hst hrest

-- ======== two processes

/-- A page table with one user page, at address 0. -/
def singlePage (l1 l0 pa : Nat) : PageTable :=
  ((PageTable.empty.linkDir 0 l1).linkMid 0 l0).setLeaf 0
    (pa2pte pa ||| pteW ||| pteU ||| pteR ||| pteV)

/-- The frame of the only resident page of process `p`. -/
def frameOf (p : ProcId) : FrameEntry :=
  { FrameEntry.initial with inUse := true, owner := some p }

/-- Two running processes of two pages, one of them resident, in the
first two frames, and two free pages. -/
def twoProcs : Kernel :=
  let q : Proc :=
    { Proc.initial with state := .running, sz := 2 * pgsize, level := 3 }
  { Kernel.initial 0x80020000 0x80001000 [0x80028000, 0x80029000] with
    pagetables := update (update (fun _ => .dead) 0x80022000
      (singlePage 0x80023000 0x80024000 0x80020000)) 0x80025000
      (singlePage 0x80026000 0x80027000 0x80021000)
    proc := update (update (fun _ => .initial) 0
      { q with pagetable := some 0x80022000 }) 1
      { q with pagetable := some 0x80025000 }
    frameTable := update (update (fun _ => .initial) 0 (frameOf 0)) 1 (frameOf 1) }

/-- The events of a `swap_page_out` of the page in frame `f` that is handed
its own request. -/
def swapOutEvents (t : ProcId) (req slot : Nat) (f : FrameEntry) (block : Int) : List Event :=
  [.found t slot, .enqueued t req, .taken t req (some req), .served t req, .freed t req,
    .recorded t slot ⟨true, f.owner, 0, block, 0⟩,
    .swappedOut t f block ⟨true, f.owner, 0, block, 0⟩, .returned t req]

/-- The two processes, each at the start of a call. -/
def twoCalls (s : Kernel) (c0 c1 : Call) : KPool :=
  { state := s
    notes := []
    threads := update (update (fun _ => .ret ()) 0 (c0.prog 0)) 1 (c1.prog 1) }

theorem twoCalls_reach (s : Kernel) (c0 c1 : Call) : Interleaved cond s (twoCalls s c0 c1) := by
  have h0 : Interleaved cond s ⟨s, [], update (fun _ => .ret ()) 0 (c0.prog 0)⟩ :=
    .call (w := ⟨s, [], fun _ => .ret ()⟩) 0 c0 (.start rfl) rfl
  exact .call 1 c1 h0 rfl

/-- The log of a schedule of two calls is the log of an interleaving. -/
theorem twoCalls_run (cond : ProcId → Section → Kernel → List Event → Prop)
    (ok : ProcId → Section → Kernel → List Event → Bool) (s : Kernel)
    (c0 c1 : Call) (ts : List ProcId) (log : List Event)
    (hok : ∀ t lbl s log, ok t lbl s log = true → cond t lbl s log)
    (h : ((twoCalls s c0 c1).run ok ts).map Pool.log = some log) :
    ∃ w, Interleaved cond s w ∧ w.log = log := by
  obtain ⟨w, hw, hlog⟩ := Option.map_eq_some_iff.mp h
  exact ⟨w, (twoCalls_reach s c0 c1).run hok hw, hlog⟩

end GemOS
