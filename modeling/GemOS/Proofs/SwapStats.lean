/-
The swap counters of a process, whatever calls overlap.

Two layers count. `update_disk_stats` adds one to `pages_swapped_out` or
`pages_swapped_in` of the process of every request it serves; then
`evict_page` and `swap_page_in` add one more for the page they have
moved. So an evicted page counts twice, and so does a page that came
back. And who serves a request need not be who queued it: a call can
return 0 with its own request still in the queue and not counted.

# The law

Every section of every call adds to the counters what its events say
(`Call.counts`), so the law holds throughout every interleaving, from the
moment a process is created in the midst of the calls of others.
-/
import GemOS.Proofs.Victims

namespace GemOS

open Function Prog Conc

-- ======== events

section events

variable (p : ProcId)

/-- A request of this type was served for `p`. -/
def servedFor (type : DiskOp) : Event × Kernel → Bool
  | (.served _ req, s) =>
    (s.requests req).type == type && (s.requests req).proc == some p
  | _ => false

/-- `swap_page_out` returned 0 for a page of `p`. -/
def swappedOutOf : Event × Kernel → Bool
  | (.swappedOut _ _ _ e, _) => e.owner == some p
  | _ => false

/-- `swap_page_in` returned 0 for `p`. -/
def swappedInFor : Event × Kernel → Bool
  | (.swappedIn t, _) => t == p
  | _ => false

/-- `evict_page` took a page of `p`. -/
def evictedFrom : Event × Kernel → Bool
  | (.evicted _ idx, s) => (s.frameTable idx).owner == some p
  | _ => false

end events

-- ======== counters

/-- The swap counters of a process. -/
structure SwapStats where
  out : Int
  back : Int
  evicted : Int
  deriving DecidableEq

def Proc.swapStats (q : Proc) : SwapStats :=
  ⟨q.pagesSwappedOut, q.pagesSwappedIn, q.pagesEvicted⟩

def Kernel.stats (s : Kernel) (p : ProcId) : SwapStats := (s.proc p).swapStats

/-- The counters of `p` count each of its events once, and where all its
swap-outs were evictions they agree. -/
def CountedOnce (p : ProcId) (n : Notes Event Kernel) (s : Kernel) : Prop :=
  (s.proc p).pagesSwappedOut = n.countP (swappedOutOf p)
    ∧ (s.proc p).pagesSwappedIn = n.countP (swappedInFor p)
    ∧ (n.countP (evictedFrom p) = n.countP (swappedOutOf p) →
      (s.proc p).pagesEvicted = (s.proc p).pagesSwappedOut)

instance (p : ProcId) (n : Notes Event Kernel) (s : Kernel) : Decidable (CountedOnce p n s) :=
  inferInstanceAs (Decidable (_ ∧ _))

/-- What the events add to the counters `c` of `p`. -/
structure Counted (p : ProcId) (n : Notes Event Kernel) (c c' : SwapStats) : Prop where
  out : c'.out = c.out + n.countP (servedFor p .write) + n.countP (evictedFrom p)
  back : c'.back = c.back + n.countP (servedFor p .read) + n.countP (swappedInFor p)
  evicted : c'.evicted = c.evicted + n.countP (evictedFrom p)

variable {p : ProcId} {n m : Notes Event Kernel} {c c' c'' : SwapStats} {s s' : Kernel}

theorem Counted.trans (h : Counted p n c c') (h' : Counted p m c' c'') :
    Counted p (n ++ m) c c'' := by
  obtain ⟨h1, h2, h3⟩ := h
  obtain ⟨h1', h2', h3'⟩ := h'
  constructor <;> rw [List.countP_append] <;> try rw [List.countP_append]
  all_goals push_cast
  all_goals omega

/-- What a section does to the counters of all processes. -/
def CountsSwaps (s s' : Kernel) (evs : List Event) : Prop :=
  ∀ p, Counted p (evs.map (·, s')) (s.stats p) (s'.stats p)

-- ======== one section

/-- Events that count for nothing. -/
def Event.uncounted : Event → Bool
  | .served .. | .swappedIn _ | .evicted .. => false
  | _ => true

theorem CountsSwaps.still {evs : List Event} (h : s'.stats = s.stats)
    (hev : ∀ e ∈ evs, e.uncounted = true) : CountsSwaps s s' evs := by
  intro p
  have hzero : ∀ f : Event × Kernel → Bool, (∀ e, e.uncounted = true → f (e, s') = false) →
      (evs.map (·, s')).countP f = 0 := by
    intro f hf
    refine List.countP_eq_zero.mpr fun x hx => ?_
    obtain ⟨e, he, rfl⟩ := List.mem_map.mp hx
    rw [hf e (hev e he)]
    exact Bool.false_ne_true
  have hserved : ∀ type, (evs.map (·, s')).countP (servedFor p type) = 0 :=
    fun type => hzero _ fun e he => by cases e <;> first | rfl | cases he
  have hevicted := hzero (evictedFrom p) fun e he => by cases e <;> first | rfl | cases he
  have hback := hzero (swappedInFor p) fun e he => by cases e <;> first | rfl | cases he
  rw [h]
  constructor
  · rw [hserved, hevicted]
    omega
  · rw [hserved, hback]
    omega
  · rw [hevicted]
    omega

theorem updProc_stats (s : Kernel) (q : ProcId) (f : Proc → Proc) (p : ProcId) :
    (s.updProc q f).stats p = if p = q then (f (s.proc q)).swapStats else s.stats p := by
  unfold Kernel.stats Kernel.updProc
  dsimp only
  by_cases hp : p = q
  · rw [hp, update_self, if_pos rfl]
  · rw [update_of_ne hp, if_neg hp]

/-- A change that leaves the swap counters. -/
theorem updProc_stats_eq (s : Kernel) (q : ProcId) {f : Proc → Proc}
    (hf : ∀ x, (f x).swapStats = x.swapStats) : (s.updProc q f).stats = s.stats := by
  funext p
  rw [updProc_stats, hf]
  split
  · rename_i hp
    rw [hp]
    rfl
  · rfl

/-- A served request counts for its process. -/
theorem CountsSwaps.served (t : ProcId) (s : Kernel) (req : Nat) :
    CountsSwaps s (s.processed req) [.served t req] := by
  intro p
  have hreq : (s.processed req).requests = s.requests := by
    unfold Kernel.processed Kernel.updateDiskStats
    dsimp only
    cases (s.requests req).proc <;> rfl
  have hstats : (s.processed req).stats p = if (s.requests req).proc = some p then
          if (s.requests req).type = .read then { s.stats p with back := (s.stats p).back + 1 }
          else { s.stats p with out := (s.stats p).out + 1 }
        else s.stats p := by
    unfold Kernel.processed Kernel.updateDiskStats Kernel.stats
    dsimp only
    cases (s.requests req).proc with
    | none => rfl
    | some q =>
      dsimp only
      by_cases hq : q = p
      · subst hq
        rw [if_pos rfl, update_self]
        cases (s.requests req).type <;> rfl
      · rw [if_neg fun heq => hq (Option.some.inj heq), update_of_ne (Ne.symm hq)]
  rw [hstats]
  by_cases hproc : (s.requests req).proc = some p
  · rw [if_pos hproc]
    cases htype : (s.requests req).type <;> constructor <;>
      simp [servedFor, evictedFrom, swappedInFor, hreq, hproc, htype]
  · rw [if_neg hproc]
    constructor <;> simp [servedFor, evictedFrom, swappedInFor, hreq, hproc]

/-- An eviction counts for the owner of the frame. -/
theorem CountsSwaps.evicted (t : ProcId) {u : Unit} {idx : Nat} {k : Notes Mark Kernel}
    (h : countEviction idx s = .ok (u, s', k)) : CountsSwaps s s' [.evicted t idx] := by
  intro p
  cases h
  dsimp only
  cases howner : (s.frameTable idx).owner with
  | none => constructor <;> simp [servedFor, evictedFrom, swappedInFor, howner]
  | some q =>
    have hframe : ∀ f, (s.updProc q f).frameTable = s.frameTable := fun _ => rfl
    dsimp only
    rw [updProc_stats]
    by_cases hp : p = q
    · subst hp
      rw [if_pos rfl]
      constructor <;>
        simp [servedFor, evictedFrom, swappedInFor, hframe, howner, Proc.swapStats, Kernel.stats]
    · have hq : q ≠ p := Ne.symm hp
      rw [if_neg hp]
      constructor <;> simp [servedFor, evictedFrom, swappedInFor, hframe, howner, hq]

/-- `swap_page_in` counts for its caller. -/
theorem CountsSwaps.swappedIn (t : ProcId) (own : Nat) {u : Unit} {k : Notes Mark Kernel}
    (h : countSwapIn t s = .ok (u, s', k)) : CountsSwaps s s' [.swappedIn t, .returned t own] := by
  intro p
  cases h
  rw [updProc_stats]
  by_cases hp : p = t
  · subst hp
    rw [if_pos rfl]
    constructor <;> simp [servedFor, evictedFrom, swappedInFor, Proc.swapStats, Kernel.stats]
  · have ht : t ≠ p := Ne.symm hp
    rw [if_neg hp]
    constructor <;> simp [servedFor, evictedFrom, swappedInFor, ht]

-- ======== the calls

section calls

variable {α : Type} {x : K α} {ev : α → List Event} {t : ProcId}

theorem each_atomic {lbl : Section} (hx : Keeps Kernel.stats x)
    (hev : ∀ a, ∀ e ∈ ev a, e.uncounted = true) : Each CountsSwaps (atomic lbl x ev) :=
  .atomic fun _ a _ _ hrun => .still (hx hrun) (hev a)

theorem each_quiet (hx : Keeps Kernel.stats x) : Each CountsSwaps (quiet x) :=
  each_atomic hx fun _ _ he => nomatch he

/-- One event that counts for nothing. -/
theorem uncounted_single {e : Event} (he : e.uncounted = true) : ∀ e' ∈ [e], e'.uncounted = true :=
  fun _ h => List.mem_singleton.mp h ▸ he

theorem uncounted_map {β : Type} {l : List β} {f : β → Event} (hf : ∀ y, (f y).uncounted = true) :
    ∀ e ∈ l.map f, e.uncounted = true := by
  intro e he
  obtain ⟨y, -, rfl⟩ := List.mem_map.mp he
  exact hf y

theorem each_freed (pa : Nat) :
    Each CountsSwaps (logged (kfree pa) fun _ => [.freed t pa] : C Unit) :=
  each_atomic ((beside_kfree pa).comp Kernel.stats) fun _ => uncounted_single rfl

theorem submitRequestC_counts (type : DiskOp) (block : Int) (buffer : Nat) (q : Option ProcId) :
    Each CountsSwaps (submitRequestC t type block buffer q) := by
  refine .bind (each_quiet (beside_kalloc.comp Kernel.stats)) fun r => ?_
  cases r with
  | none => trivial
  | some req =>
    refine .bind (each_atomic (keeps_enqueueRequest (fun _ _ _ _ => rfl) ..) fun b => ?_)
      fun b => ?_
    · cases b with
      | false => exact fun _ he => nomatch he
      | true => exact uncounted_single rfl
    cases b with
    | false => exact .bind (each_freed _) fun _ => trivial
    | true =>
      refine .bind (each_atomic (keeps_scheduleNextRequest fun _ _ _ _ => rfl)
        fun _ => uncounted_single rfl) fun got => ?_
      cases got with
      | none => trivial
      | some got =>
        refine .bind (.atomic fun s _ s' k hrun => ?_) fun _ => ?_
        · cases hrun
          exact .served t s got
        · exact .bind (each_freed _) fun _ => trivial

theorem swapPageOutC_counts (pa : Nat) : Each CountsSwaps (swapPageOutC t pa) := by
  refine .bind (each_quiet .get) fun s => ?_
  cases s.getFrameEntry pa with
  | none => trivial
  | some idx =>
    dsimp only
    split
    · trivial
    refine .bind (each_atomic (.bind .get fun _ => .pure _) fun _ => uncounted_map fun _ => rfl)
      fun slot? => ?_
    cases slot? with
    | none => trivial
    | some slot =>
      refine .bind (each_atomic (keeps_takeSwapBlock fun _ _ => rfl) fun b? => ?_) fun b? => ?_
      · cases b? with
        | none => exact uncounted_single rfl
        | some b => exact fun _ he => nomatch he
      cases b? with
      | none => trivial
      | some block =>
        refine .bind (each_quiet .get) fun s => .bind (submitRequestC_counts _ _ _ _) fun r => ?_
        cases r with
        | none => exact .bind (each_atomic (.pure _) fun _ => uncounted_single rfl) fun _ => trivial
        | some own =>
          refine .bind (each_atomic (.bind .get fun _ => .bind (.modify fun _ => rfl)
            fun _ => .pure _) fun _ => uncounted_single rfl) fun r => ?_
          refine .bind (each_atomic (keeps_markSwappedOut (fun _ => rfl) fun _ _ _ _ => rfl)
            fun _ e he => ?_) fun _ => trivial
          rcases List.mem_cons.mp he with rfl | he
          · rfl
          · exact uncounted_single rfl e he

theorem kallocOrEvictC_counts : Each CountsSwaps (kallocOrEvictC t) := by
  refine .bind (each_quiet (beside_kalloc.comp Kernel.stats)) fun r => ?_
  cases r with
  | some pa => trivial
  | none =>
    refine .bind (each_quiet (.bind .get fun _ => .pure _)) fun start => ?_
    refine .bind (each_atomic (keeps_selectVictim (fun _ _ _ => rfl) _)
      fun _ => uncounted_map fun _ => rfl) fun idx? => ?_
    cases idx? with
    | none => trivial
    | some idx =>
      refine .bind (each_quiet .get) fun s => .bind (swapPageOutC_counts _) fun r => ?_
      split
      · exact .bind (each_atomic (.pure _) fun _ => uncounted_single rfl) fun _ => trivial
      · exact .bind (.atomic fun _ _ _ _ hrun => .evicted t hrun) fun _ => trivial

theorem swapPageInC_counts (va : Nat) : Each CountsSwaps (swapPageInC t va) := by
  refine .bind (each_atomic .get fun _ => uncounted_map fun _ => rfl) fun s => ?_
  cases s.swapSlotOf t va with
  | none => trivial
  | some slot =>
    refine .bind kallocOrEvictC_counts fun pa? => ?_
    cases pa? with
    | none => exact .bind (each_atomic (.pure _) fun _ => uncounted_single rfl) fun _ => trivial
    | some newPa =>
      refine .bind (submitRequestC_counts _ _ _ _) fun r => ?_
      cases r with
      | none =>
        exact .bind (each_atomic ((beside_kfree _).comp Kernel.stats) fun _ e he => by
          rcases List.mem_cons.mp he with rfl | he
          · rfl
          · exact uncounted_single rfl e he) fun _ => trivial
      | some own =>
        refine .bind (each_atomic (.modify fun _ => rfl) fun _ => uncounted_single rfl) fun _ => ?_
        refine .bind (each_quiet (keeps_pagetableOf _)) fun root => ?_
        refine .bind (each_quiet ((beside_mappages ..).comp Kernel.stats)) fun r => ?_
        split
        · exact .bind (each_freed _) fun _ => trivial
        refine .bind (each_atomic (keeps_registerFrame (fun _ _ => rfl) ..)
          fun _ => uncounted_map fun _ => rfl) fun _ => ?_
        exact .bind (.atomic fun _ _ _ _ hrun => .swappedIn t own hrun) fun _ => trivial

theorem faultInC_counts (va : Nat) : Each CountsSwaps (faultInC t va) := by
  refine .bind (each_quiet (.modify fun s => updProc_stats_eq s t fun _ => rfl)) fun _ => ?_
  refine .bind kallocOrEvictC_counts fun pa? => ?_
  cases pa? with
  | none => trivial
  | some mem =>
    refine .bind (each_quiet (.modify fun _ => rfl)) fun _ => ?_
    refine .bind (each_quiet (keeps_pagetableOf _)) fun root => ?_
    refine .bind (each_quiet ((beside_mappages ..).comp Kernel.stats)) fun r => ?_
    split
    · exact .bind (each_freed _) fun _ => trivial
    refine .bind (each_atomic (keeps_registerFrame (fun _ _ => rfl) ..)
      fun _ => uncounted_map fun _ => rfl) fun _ => ?_
    exact .bind (each_quiet (.modify fun s => updProc_stats_eq s t fun _ => rfl)) fun _ => trivial

theorem vmfaultC_counts (pagetable va : Nat) : Each CountsSwaps (vmfaultC t pagetable va) := by
  have htouch : ∀ va, Each CountsSwaps (faultOrTouchC t pagetable va) := by
    intro va
    refine .bind (each_quiet (keeps_ismapped ..)) fun b => ?_
    split
    · exact .bind (each_quiet (.modify fun _ => rfl)) fun _ => trivial
    · exact faultInC_counts va
  refine .bind (each_quiet .get) fun s => ?_
  split
  · trivial
  refine .bind (each_quiet ((beside_walk ..).comp Kernel.stats)) fun there => ?_
  refine .bind (each_quiet .get) fun s' => ?_
  dsimp only
  split
  · refine .bind (swapPageInC_counts _) fun r => ?_
    split
    · exact .bind (each_quiet (.modify fun s => updProc_stats_eq s t fun _ => rfl)) fun _ => trivial
    · exact htouch _
  · exact htouch _

/-- Every section of every call adds to the counters what its events
say. -/
theorem Call.counts (c : Call) : Each CountsSwaps (c.prog t) := by
  cases c with
  | swapOut pa => exact .bind (swapPageOutC_counts pa) fun _ => trivial
  | swapIn va => exact .bind (swapPageInC_counts va) fun _ => trivial
  | fault pagetable va => exact .bind (vmfaultC_counts pagetable va) fun _ => trivial

end calls

-- ======== runs

/-- The life of `p` so far: it was created amid the calls of others, with
its counters at 0, and since then the rest of the kernel has left them
alone. The notes are those since its creation. -/
structure Life (p : ProcId) (s0 : Kernel) (w0 w : KPool) : Prop where
  before : Interleaved (fun _ _ _ _ => True) s0 w0
  zero : w0.state.stats p = ⟨0, 0, 0⟩
  since : Pool.Reach (· = { w0 with notes := [] })
    (fun s s' => Outside s s' ∧ s'.stats p = s.stats p) Call.prog (fun _ _ _ _ => True) w

variable {s0 : Kernel} {w0 w : KPool}

theorem Life.counted (h : Life p s0 w0 w) : Counted p w.notes ⟨0, 0, 0⟩ (w.state.stats p) := by
  have hthreads : ∀ t, Each CountsSwaps (w0.threads t) := by
    refine (Pool.Reach.each (I := fun _ _ => True) ?_ (fun _ c => c.counts)
      (fun _ _ _ _ _ => trivial) (fun _ _ _ _ _ _ => trivial) h.before).2
    rintro w rfl
    exact ⟨trivial, fun _ => trivial⟩
  refine (Pool.Reach.each (R := CountsSwaps) (I := fun s n => Counted p n ⟨0, 0, 0⟩ (s.stats p))
    ?_ (fun _ c => c.counts) ?_ ?_ h.since).1
  · rintro w rfl
    refine ⟨?_, hthreads⟩
    rw [h.zero]
    exact ⟨by simp, by simp, by simp⟩
  · rintro s s' n ⟨-, hstats⟩ hn
    rw [hstats]
    exact hn
  · exact fun s s' evs n hR hn => hn.trans (hR p)

/-- A schedule of two calls, both processes just created. -/
theorem twoCalls_life (s : Kernel) (c0 c1 : Call) (ts : List ProcId) (f : KPool → Bool) (p : ProcId)
    (hzero : s.stats p = ⟨0, 0, 0⟩)
    (h : ((twoCalls s c0 c1).run (fun _ _ _ _ => true) ts).map f = some true) :
    ∃ w, Life p s (twoCalls s c0 c1) w ∧ f w = true := by
  obtain ⟨w, hw, hf⟩ := Option.map_eq_some_iff.mp h
  exact ⟨w, ⟨twoCalls_reach .., hzero, Pool.Reach.run (.start rfl) (fun _ _ _ _ _ => trivial) hw⟩,
    hf⟩

/-- The page of process 0 was swapped out before the counters began. -/
def outAlready : Kernel := { after (swapPageOut 0x80020000) twoProcs with proc := twoProcs.proc }

end GemOS
