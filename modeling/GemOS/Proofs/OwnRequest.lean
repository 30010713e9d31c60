/-
Whose request a swap operation waits for.

Both swap functions queue a request of their own and then serve whatever
`schedule_next_request` hands out. With one caller at a time that is the
same request. With several, a caller can be handed another's, and then
returns 0 while its own is still in the queue.

`OwnNext` is what it takes: each dequeue happens in a state in which the
policy in force prefers the caller's own request (the head of the queue
under FCFS, the first of least key under SSTF).
-/
import GemOS.Proofs.Queue
import GemOS.Proofs.Interleave

namespace GemOS

open Prog Conc

-- ======== scheduling

/-- The policy in force prefers the request `own`. -/
def Prefers (s : Kernel) (own : Nat) : Prop :=
  match s.diskSchedPolicy with
  | .fcfs => s.diskQueueHead = some own
  | .sstf => ∃ pre post, Chain s.nextOf s.diskQueueHead (pre ++ own :: post)
      ∧ FirstMin s.sstfKey pre own post

variable {got : Option Nat} {n : List (Mark × Kernel)} {own : Nat} {s s' : Kernel}

theorem scheduleFcfs_prefers (h : s.diskQueueHead = some own)
    (hrun : scheduleFcfs s = .ok (got, s', n)) : got = some own := by
  simp only [scheduleFcfs, get_bind_run, h] at hrun
  cases hrun
  rfl

theorem scheduleSstf_prefers {pre post : List Nat}
    (hc : Chain s.nextOf s.diskQueueHead (pre ++ own :: post))
    (hmin : FirstMin s.sstfKey pre own post)
    (hrun : scheduleSstf s = .ok (got, s', n)) : got = some own := by
  have hfuel : (pre ++ own :: post).length ≤ ramPages := by
    obtain ⟨head, hhead⟩ : ∃ head, s.diskQueueHead = some head := by
      rw [hc.start]
      exact ⟨_, List.head?_eq_some_head (by simp)⟩
    simp only [scheduleSstf, get_bind_run, hhead] at hrun
    cases hw : s.sstfWalk ramPages none (some head)
        { best := head, prevBest := none, minLatency := s.latencyOf head } with
    | none => rw [hw] at hrun; cases hrun
    | some b => exact sstfWalk_fuel s _ _ _ _ _ _ (hhead ▸ hc) hw
  obtain ⟨b, pre', post', hsplit, -, hmin', hrun'⟩ := scheduleSstf_cons hc (by simp) hfuel
  rw [hrun'] at hrun
  cases hrun
  rw [hmin.unique hmin' hsplit]

/-- A scheduler that prefers a request hands it out. -/
theorem scheduleNextRequest_prefers (h : Prefers s own)
    (hrun : scheduleNextRequest s = .ok (got, s', n)) : got = some own := by
  unfold Prefers at h
  simp only [scheduleNextRequest, get_bind_run] at hrun
  cases hpol : s.diskSchedPolicy with
  | fcfs =>
    rw [hpol] at h hrun
    exact scheduleFcfs_prefers h hrun
  | sstf =>
    rw [hpol] at h hrun
    obtain ⟨pre, post, hc, hmin⟩ := h
    exact scheduleSstf_prefers hc hmin hrun

-- ======== the trace

/-- Every dequeue finds the caller's own request preferred. -/
def OwnNext : ProcId → Section → Kernel → List Event → Prop
  | _, .dequeue own, s, _ => Prefers s own
  | _, _, _, _ => True

/-- The last request that process `t` has queued is `own`, and it has
been passed to `process_disk_request` since. -/
def OwnServed (t : ProcId) (own : Nat) (log : List Event) : Prop :=
  ∃ a b, log = a ++ .enqueued t own :: b ∧ (∀ r, Event.enqueued t r ∉ b)
    ∧ ∃ u, Event.served u own ∈ b

theorem OwnServed.snoc {t : ProcId} {own : Nat} {log : List Event} {e : Event}
    (h : OwnServed t own log) (he : ∀ r, e ≠ .enqueued t r) : OwnServed t own (log ++ [e]) := by
  obtain ⟨a, b, rfl, hlast, u, hu⟩ := h
  refine ⟨a, b ++ [e], by simp, fun r hr => ?_, u, List.mem_append_left _ hu⟩
  rcases List.mem_append.mp hr with hr | hr
  · exact hlast r hr
  · exact he r (List.mem_singleton.mp hr).symm

/-- What each event promises about the events before it. -/
def OwnTrace (log : List Event) : Event → Prop
  | .taken _ own got => got = some own
  | .returned t own => OwnServed t own log
  | _ => True

/-- A split of a process's own events is a split of the log. -/
theorem mine_split {t : ProcId} {log h1 h2 : List Event} {e : Event}
    (h : mine Event.thread t log = h1 ++ e :: h2) :
    ∃ a b, log = a ++ e :: b ∧ mine Event.thread t b = h2 := by
  obtain ⟨a, b, rfl, -, hb⟩ := List.filter_eq_append_iff.mp h
  obtain ⟨b1, b2, rfl, -, -, hb2⟩ := List.filter_eq_cons_iff.mp hb
  exact ⟨a ++ b1, b2, by simp, hb2⟩

theorem ownTrace_stable : Stable OwnNext fun _ log => Traced OwnTrace log := by
  intro t lbl s s' log evs ha hI hC
  cases ha with
  | aside _ hev =>
    refine hI.append fun a e he => ?_
    have hlight := (hev e he).2
    cases e with
    | taken | returned => cases hlight
    | _ => trivial
  | search | pin | scan =>
    refine hI.append fun a e he => ?_
    obtain ⟨x, -, rfl⟩ := List.mem_map.mp he
    trivial
  | record | clear => exact hI.snoc trivial
  | take hrun _ => exact hI.snoc (scheduleNextRequest_prefers hC hrun)
  | @commit _ _ own e hcom hclose _ =>
    have hclosed : Traced OwnTrace (log ++ [e]) := by
      refine hI.snoc ?_
      cases e with
      | taken | returned => exact hclose.elim
      | _ => trivial
    rw [← List.singleton_append, ← List.append_assoc]
    refine hclosed.snoc (OwnServed.snoc ?_ hclose.not_enqueued)
    obtain ⟨h1, h2, got, hmine, hlast, htaken, hserved⟩ := hcom
    obtain ⟨a, b, rfl, rfl⟩ := mine_split hmine
    have hmem : ∀ {e : Event}, e ∈ mine Event.thread t b → e ∈ b :=
      fun he => (List.mem_filter.mp he).1
    -- what the scheduler handed out was the caller's own
    obtain ⟨b1, b2, hb⟩ := List.append_of_mem (hmem htaken)
    have hgot : got = some own :=
      hI (a ++ .enqueued t own :: b1) (.taken t own got) b2 (by rw [hb]; simp)
    refine ⟨a, b, rfl, fun r hr => hlast r ?_, t, hmem (hserved _ hgot)⟩
    exact List.mem_filter.mpr ⟨hr, decide_eq_true rfl⟩

/-- In every interleaving in which each caller's dequeue finds its own
request preferred by the policy in force, a swap operation that returns 0
has seen its own request processed. -/
theorem own_request_served {s0 : Kernel} {w : KPool}
    (hr : Interleaved OwnNext s0 w) (a b : List Event) (t : ProcId)
    (own : Nat) (hlog : w.log = a ++ .returned t own :: b) :
    OwnServed t own a :=
  hr.invariant (fun _ log => Traced OwnTrace log) .nil
    (fun _ _ _ _ h => h) ownTrace_stable a _ b hlog

/-- The check of `OwnNext` under FCFS. -/
def ownNextFcfs : ProcId → Section → Kernel → List Event → Bool
  | _, .dequeue own, s, _ =>
    s.diskSchedPolicy = .fcfs && s.diskQueueHead = some own
  | _, _, _, _ => true

theorem ownNext_of_check (t : ProcId) (lbl : Section) (s : Kernel)
    (log : List Event) (h : ownNextFcfs t lbl s log = true) :
    OwnNext t lbl s log := by
  cases lbl with
  | dequeue own =>
    simp only [ownNextFcfs, Bool.and_eq_true, decide_eq_true_eq] at h
    show Prefers s own
    unfold Prefers
    rw [h.1]
    exact h.2
  | _ => trivial

/-- Two processes that swap out their page one after the other: the
second call, too, returns with its request served. -/
theorem own_request_served_twice : ∃ w a, Interleaved OwnNext twoProcs w
      ∧ w.log = a ++ [.returned 1 0x80028000]
      ∧ OwnServed 1 0x80028000 a := by
  obtain ⟨w, hw, hlog⟩ := twoCalls_run OwnNext ownNextFcfs twoProcs
    (.swapOut 0x80020000) (.swapOut 0x80021000) (List.replicate 11 0 ++ List.replicate 11 1)
    (swapOutEvents 0 0x80028000 0 (frameOf 0) 0 ++ [.found 1 1,
      .enqueued 1 0x80028000, .taken 1 0x80028000 (some 0x80028000), .served 1 0x80028000,
      .freed 1 0x80028000, .recorded 1 1 ⟨true, some 1, 0, 1, 0⟩,
      .swappedOut 1 (frameOf 1) 1 ⟨true, some 1, 0, 1, 0⟩] ++ [.returned 1 0x80028000])
    ownNext_of_check (by decide +kernel)
  exact ⟨w, _, hw, hlog, own_request_served hw _ [] 1 _ hlog⟩

/-- The second caller takes over once the first has queued its request:
it is handed that request, and returns 0 with its own still queued. -/
theorem overtaken_unserved : ∃ w a, Interleaved (fun _ _ _ _ => True) twoProcs w
      ∧ w.log = a ++ [.returned 1 0x80029000]
      ∧ ¬ OwnServed 1 0x80029000 a := by
  obtain ⟨w, hw, hlog⟩ := twoCalls_run (fun _ _ _ _ => True)
    (fun _ _ _ _ => true) twoProcs (.swapOut 0x80020000)
    (.swapOut 0x80021000) (List.replicate 6 0 ++ List.replicate 11 1)
    ([.found 0 0, .enqueued 0 0x80028000, .found 1 0,
      .enqueued 1 0x80029000, .taken 1 0x80029000 (some 0x80028000),
      .served 1 0x80028000, .freed 1 0x80028000, .recorded 1 0 ⟨true, some 1, 0, 1, 0⟩,
      .swappedOut 1 (frameOf 1) 1 ⟨true, some 1, 0, 1, 0⟩] ++ [.returned 1 0x80029000])
    (fun _ _ _ _ _ => trivial) (by decide +kernel)
  refine ⟨w, _, hw, hlog, ?_⟩
  rintro ⟨a, b, hab, -, u, hu⟩
  have hmem : Event.served u 0x80029000 ∈ a ++ .enqueued 1 0x80029000 :: b :=
    List.mem_append_right _ (List.mem_cons_of_mem _ hu)
  rw [← hab] at hmem
  simp at hmem

end GemOS
