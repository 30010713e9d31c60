/-
The disk queue refines a list.

# The abstract queue

`ListQueue evs l` is what the queue is for: after the operations `evs`
the requests `l` are pending, in arrival order. An addition appends;
FCFS returns the first element; SSTF returns any one element and leaves
the others in order; an empty queue returns nothing.

# The run

`QueueRun C evs out s` is the code: any interleaving of
`add_disk_request`, `schedule_next_request`, `setdisksched`, the
callers' `kfree` of what they were handed (`out`), and steps of the rest
of the kernel, which may change anything but the queue and the free
list. `C` is a condition on the states in which the scheduler is called.

# The result

With no condition the refinement fails: once SSTF has taken the last of
several requests, the next addition is linked behind a request that is
no longer queued, and is lost. That is the only obstacle
(`queue_refines_list`).
-/
import GemOS.Proofs.Queue

namespace GemOS

open Prog

-- ======== the abstract queue

/-- A request as it was added: its page and its fields, without the
link. -/
structure Pending where
  addr : Nat
  req : DiskRequest
  deriving DecidableEq

/-- What a queue operation was and gave. -/
inductive QueueEvent
  | added (e : Pending)
  | scheduled (policy : DiskPolicy) (r : Option Pending)
  deriving DecidableEq

/-- The runs of a list used as a queue, with the elements pending. -/
inductive ListQueue : List QueueEvent → List Pending → Prop
  | empty : ListQueue [] []
  | add {evs l} (e : Pending) :
      ListQueue evs l → ListQueue (evs ++ [.added e]) (l ++ [e])
  | idle {evs} (policy : DiskPolicy) :
      ListQueue evs [] → ListQueue (evs ++ [.scheduled policy none]) []
  | first {evs e l} :
      ListQueue evs (e :: l) →
      ListQueue (evs ++ [.scheduled .fcfs (some e)]) l
  | pick {evs pre e post} :
      ListQueue evs (pre ++ e :: post) →
      ListQueue (evs ++ [.scheduled .sstf (some e)]) (pre ++ post)

/-- The requests added in a run. -/
def addedIn (evs : List QueueEvent) : List Pending :=
  evs.filterMap fun
    | .added e => some e
    | .scheduled _ _ => none

/-- The requests handed out in a run. -/
def returnedIn (evs : List QueueEvent) : List Pending :=
  evs.filterMap fun
    | .added _ => none
    | .scheduled _ r => r

theorem addedIn_append (evs evs' : List QueueEvent) :
    addedIn (evs ++ evs') = addedIn evs ++ addedIn evs' :=
  List.filterMap_append ..

theorem returnedIn_append (evs evs' : List QueueEvent) :
    returnedIn (evs ++ evs') = returnedIn evs ++ returnedIn evs' :=
  List.filterMap_append ..

/-- Nothing is lost and nothing handed out twice: what was added is what
was handed out together with what is pending. -/
theorem ListQueue.conserves {evs : List QueueEvent} {l : List Pending}
    (h : ListQueue evs l) : (addedIn evs).Perm (returnedIn evs ++ l) := by
  induction h with
  | empty => exact .refl _
  | add e _ ih =>
    rw [addedIn_append, returnedIn_append]
    simpa [addedIn, returnedIn] using ih.append_right [e]
  | idle policy _ ih =>
    rw [addedIn_append, returnedIn_append]
    simpa [addedIn, returnedIn] using ih
  | first _ ih =>
    rw [addedIn_append, returnedIn_append]
    simpa [addedIn, returnedIn] using ih
  | @pick evs pre e post _ ih =>
    rw [addedIn_append, returnedIn_append]
    have hmid : (returnedIn evs ++ (pre ++ e :: post)).Perm
        (returnedIn evs ++ ([e] ++ (pre ++ post))) :=
      List.Perm.append_left _ List.perm_middle
    simpa [addedIn, returnedIn] using ih.trans hmid

-- ======== runs

/-- The queue globals of `s` represent the list `l`. -/
structure Represents (s : Kernel) (l : List Pending) : Prop where
  linked : Linked s (l.map Pending.addr)
  contents : ∀ e ∈ l, (s.requests e.addr).bare = e.req

/-- An empty queue over a sound free list. -/
structure QueueStart (s : Kernel) : Prop where
  head : s.diskQueueHead = none
  tail : s.diskQueueTail = none
  pages : PagesApart s []

/-- The rest of the kernel between two queue operations: it may change
anything but the queue and the allocator's lists. -/
structure Elsewhere (s s' : Kernel) : Prop where
  head : s'.diskQueueHead = s.diskQueueHead
  tail : s'.diskQueueTail = s.diskQueueTail
  requests : s'.requests = s.requests
  freelist : s'.freelist = s.freelist
  held : s'.held = s.held

/-- Runs of the queue code, with the operations so far and the requests
handed out and not yet freed. Each call of the scheduler happens in a
state that satisfies `C`. -/
inductive QueueRun (C : Kernel → Prop) : List QueueEvent → List Nat → Kernel → Prop
  | start {s} : QueueStart s → QueueRun C [] [] s
  | add {evs out s a s' t} (type : DiskOp) (logicalBlock : Int)
      (buffer : Nat) (p : Option ProcId) :
      QueueRun C evs out s →
      addRequest type logicalBlock buffer p s = .ok (some a, s', t) →
      QueueRun C (evs ++ [.added ⟨a, s'.requests a⟩]) out s'
  | refuse {evs out s s' t} (type : DiskOp) (logicalBlock : Int)
      (buffer : Nat) (p : Option ProcId) :
      QueueRun C evs out s →
      addRequest type logicalBlock buffer p s = .ok (none, s', t) →
      QueueRun C evs out s'
  | schedule {evs out s r s' t} :
      QueueRun C evs out s → C s →
      scheduleNextRequest s = .ok (r, s', t) →
      QueueRun C (evs ++ [.scheduled s.diskSchedPolicy (r.map fun a => ⟨a, (s.requests a).bare⟩)])
        (r.toList ++ out) s'
  | setdisksched {evs out s r s' t} (policy : Int) :
      QueueRun C evs out s → setdisksched policy s = .ok (r, s', t) →
      QueueRun C evs out s'
  | release {evs out s a u s' t} :
      QueueRun C evs out s → a ∈ out → kfree a s = .ok (u, s', t) →
      QueueRun C evs (out.erase a) s'
  | elsewhere {evs out s s'} :
      QueueRun C evs out s → Elsewhere s s' → QueueRun C evs out s'

-- ======== one step

/-- The invariant of a run. -/
def QueueInv (evs : List QueueEvent) (out : List Nat) (s : Kernel) : Prop :=
  ∃ l, ListQueue evs l ∧ Represents s l ∧ PagesApart s (l.map Pending.addr ++ out)

variable {s s' : Kernel} {evs : List QueueEvent} {out : List Nat} {l : List Pending} {a : Nat}
  {t : List (Mark × Kernel)}

theorem Linked.of_eq {l : List Nat} (h : Linked s l)
    (hhead : s'.diskQueueHead = s.diskQueueHead) (htail : s'.diskQueueTail = s.diskQueueTail)
    (hreq : s'.requests = s.requests) : Linked s' l := by
  have hnext : s'.nextOf = s.nextOf := by
    funext a
    unfold Kernel.nextOf
    rw [hreq]
  exact ⟨by rw [hnext, hhead]; exact h.chain, htail.trans h.tail, h.nodup⟩

theorem Represents.of_eq (h : Represents s l) (hhead : s'.diskQueueHead = s.diskQueueHead)
    (htail : s'.diskQueueTail = s.diskQueueTail)
    (hreq : s'.requests = s.requests) : Represents s' l :=
  ⟨h.linked.of_eq hhead htail hreq, fun e he => hreq ▸ h.contents e he⟩

theorem Represents.interfered (h : Represents s l) : Represents s.interfered l := by
  obtain ⟨fl, hd, m, e, hs, -⟩ := s.interfered_shape
  rw [hs]
  exact h.of_eq rfl rfl rfl

/-- Appending a request in a fresh page. -/
theorem Represents.enqueue
    {r : DiskRequest} (h : Represents s l) (ha : a ∉ l.map Pending.addr) (hr : r.next = none) :
    Represents (s.enqueue a r) (l ++ [⟨a, (s.enqueue a r).requests a⟩]) := by
  refine ⟨?_, ?_⟩
  · rw [List.map_append]
    exact h.linked.enqueue ha hr
  · intro e he
    rcases List.mem_append.mp he with he | he
    · grind [List.mem_map_of_mem, enqueue_bare, h.contents]
    · rw [List.mem_singleton.mp he]
      show ((s.enqueue a r).requests a).bare = (s.enqueue a r).requests a
      rw [enqueue_self h.linked ha]
      unfold DiskRequest.bare
      rw [← hr]

theorem enqueue_pages (s : Kernel) (a : Nat) (r : DiskRequest) :
    (s.enqueue a r).freelist = s.freelist ∧ (s.enqueue a r).held = s.held := by
  unfold Kernel.enqueue
  cases s.diskQueueTail <;> exact ⟨rfl, rfl⟩

theorem QueueInv.add {type : DiskOp} {logicalBlock : Int} {buffer : Nat} {p : Option ProcId}
    (h : QueueInv evs out s)
    (hrun : addRequest type logicalBlock buffer p s = .ok (some a, s', t)) :
    QueueInv (evs ++ [.added ⟨a, s'.requests a⟩]) out s' := by
  obtain ⟨l, hl, hrep, hpages⟩ := h
  obtain ⟨-, ⟨-, hr, -⟩ | ⟨req, rest, hfree, ⟨hr, -⟩ | ⟨loc, hr, -, hs'⟩⟩⟩ := addRequest_ok hrun
  · cases hr
  · cases hr
  · cases hr
    have hfresh := hpages.interfered.fresh hfree
    have hrep' : Represents (s.interfered.popped a rest) l := hrep.interfered.of_eq rfl rfl rfl
    refine ⟨l ++ [⟨a, s'.requests a⟩], hl.add _, ?_, ?_⟩
    · rw [hs']
      exact hrep'.enqueue hfresh rfl
    · refine hpages.interfered.of_perm ?_
      rw [hs', (enqueue_pages ..).1, (enqueue_pages ..).2, hfree]
      rw [List.perm_iff_count]
      intro x
      simp only [Kernel.popped, List.map_append, List.map_cons, List.map_nil,
        List.count_append, List.count_cons, List.count_nil]
      omega

theorem QueueInv.refuse {type : DiskOp} {logicalBlock : Int} {buffer : Nat}
    {p : Option ProcId} (h : QueueInv evs out s)
    (hrun : addRequest type logicalBlock buffer p s = .ok (none, s', t)) : QueueInv evs out s' := by
  obtain ⟨l, hl, hrep, hpages⟩ := h
  obtain ⟨-, ⟨-, -, rfl⟩ | ⟨req, rest, hfree, ⟨-, -, rfl⟩ | ⟨loc, hr, -⟩⟩⟩ := addRequest_ok hrun
  · exact ⟨l, hl, hrep.interfered, hpages.interfered⟩
  · refine ⟨l, hl, hrep.interfered.of_eq rfl rfl rfl, ?_⟩
    refine hpages.interfered.of_perm ?_
    rw [hfree]
    exact .refl _
  · cases hr

theorem scheduleNextRequest_run (s : Kernel) : scheduleNextRequest s = match s.diskSchedPolicy with
        | .fcfs => scheduleFcfs s
        | .sstf => scheduleSstf s := by
  simp only [scheduleNextRequest, get_bind_run]
  cases s.diskSchedPolicy <;> rfl

/-- The requests that stay keep their contents. -/
theorem Represents.remove {pre post : List Pending}
    {e : Pending} (h : Represents s (pre ++ e :: post))
    (hlinked : Linked s' (pre.map Pending.addr ++ post.map Pending.addr))
    (hbare : ∀ a, (s'.requests a).bare = (s.requests a).bare) : Represents s' (pre ++ post) := by
  refine ⟨by rw [List.map_append]; exact hlinked, fun e' he' => ?_⟩
  rw [hbare]
  refine h.contents e' ?_
  rcases List.mem_append.mp he' with h' | h' <;> simp [h']

/-- One call of the scheduler on a represented queue. -/
theorem schedule_spec (h : Represents s l) (hlen : l.length ≤ ramPages) (hC : ¬ SstfTakesTail s) :
    (l = [] ∧ scheduleNextRequest s = .ok (none, s, []))
    ∨ ∃ pre e post s', l = pre ++ e :: post ∧ (s.diskSchedPolicy = .fcfs → pre = [])
      ∧ scheduleNextRequest s = .ok (some e.addr, s', [])
      ∧ Represents s' (pre ++ post)
      ∧ s'.freelist = s.freelist ∧ s'.held = s.held := by
  rw [scheduleNextRequest_run]
  cases hpol : s.diskSchedPolicy with
  | fcfs =>
    cases l with
    | nil => exact .inl ⟨rfl, scheduleFcfs_nil h.linked⟩
    | cons e post =>
      refine .inr ⟨[], e, post, s.fcfsUnlink e.addr, rfl, fun _ => rfl,
        scheduleFcfs_cons h.linked, ?_, rfl, rfl⟩
      have h' : Represents s ([] ++ e :: post) := h
      exact h'.remove h.linked.fcfs fun _ => rfl
  | sstf =>
    cases l with
    | nil => exact .inl ⟨rfl, scheduleSstf_nil h.linked⟩
    | cons e0 l =>
      obtain ⟨b, pre', post', hsplit, hprev, hmin, hrun⟩ :=
        scheduleSstf_cons h.linked.chain (by simp) (by simpa using hlen)
      obtain ⟨pre, tl, hl, hpre, htl⟩ := List.map_eq_append_iff.mp hsplit
      obtain ⟨e, post, rfl, he, hpost⟩ := List.map_eq_cons_iff.mp htl
      have hlinked : Linked s (pre' ++ b.best :: post') := by
        rw [← hsplit]
        exact h.linked
      -- the choice is not the last of several
      have hlast : pre' = [] ∨ post' ≠ [] := by
        by_contra hcon
        rw [not_or, not_not] at hcon
        obtain ⟨hpre', rfl⟩ := hcon
        exact hC ⟨hpol, pre', b.best, hpre', hlinked.chain, hmin.before⟩
      obtain ⟨hd, tl, rq, hshape⟩ := sstfUnlink_shape s b
      refine .inr ⟨pre, e, post, s.sstfUnlink b, hl,
        fun hf => (nomatch hf), ?_, ?_, by rw [hshape], by rw [hshape]⟩
      · rw [he]
        exact hrun
      · rw [hl] at h
        refine h.remove ?_ (sstfUnlink_bare s b)
        rw [hpre, hpost]
        exact hlinked.sstf hprev hlast

theorem QueueInv.schedule {r : Option Nat} (h : QueueInv evs out s) (hC : ¬ SstfTakesTail s)
    (hrun : scheduleNextRequest s = .ok (r, s', t)) :
    QueueInv (evs ++ [.scheduled s.diskSchedPolicy (r.map fun a => ⟨a, (s.requests a).bare⟩)])
      (r.toList ++ out) s' := by
  obtain ⟨l, hl, hrep, hpages⟩ := h
  have hlen : l.length ≤ ramPages := by simpa using hpages.length_le
  rcases schedule_spec hrep hlen hC with
    ⟨rfl, hrun'⟩ | ⟨pre, e, post, s1, rfl, hfcfs, hrun', hrep', hfl, hhd⟩
  · rw [hrun'] at hrun
    cases hrun
    exact ⟨[], hl.idle _, hrep, hpages⟩
  · rw [hrun'] at hrun
    cases hrun
    have hbare : (s.requests e.addr).bare = e.req := hrep.contents e (by simp)
    refine ⟨pre ++ post, ?_, hrep', ?_⟩
    · rw [Option.map_some, hbare]
      cases hpol : s.diskSchedPolicy with
      | fcfs =>
        rw [hfcfs hpol] at hl ⊢
        exact hl.first
      | sstf => exact hl.pick
    · grind [hpages.of_perm, Option.toList_some]

theorem QueueInv.release {u : Unit} (h : QueueInv evs out s) (ha : a ∈ out)
    (hrun : kfree a s = .ok (u, s', t)) : QueueInv evs (out.erase a) s' := by
  obtain ⟨l, hl, hrep, hpages⟩ := h
  obtain ⟨rfl, -⟩ := kfree_ok hrun
  refine ⟨l, hl, hrep.of_eq rfl rfl rfl, hpages.of_perm ?_⟩
  have herase : (a :: out.erase a).Perm out := (List.perm_cons_erase ha).symm
  rw [List.perm_iff_count] at herase ⊢
  intro x
  have hx := herase x
  simp only [Kernel.push, List.cons_append, List.count_append, List.count_cons] at hx ⊢
  omega

theorem setdisksched_elsewhere {policy : Int} {r : Int}
    (h : setdisksched policy s = .ok (r, s', t)) : Elsewhere s s' := by
  unfold setdisksched at h
  split at h
  · cases h
    exact ⟨rfl, rfl, rfl, rfl, rfl⟩
  · split at h
    · cases h
      exact ⟨rfl, rfl, rfl, rfl, rfl⟩
    · cases h
      exact ⟨rfl, rfl, rfl, rfl, rfl⟩

theorem QueueInv.elsewhere
    (h : QueueInv evs out s) (he : Elsewhere s s') : QueueInv evs out s' := by
  obtain ⟨l, hl, hrep, hpages⟩ := h
  refine ⟨l, hl, hrep.of_eq he.head he.tail he.requests, hpages.of_perm ?_⟩
  rw [he.freelist, he.held]

-- ======== the run

/-- The invariant of every run in which SSTF never takes the last of
several requests. -/
theorem QueueRun.inv (h : QueueRun (fun s => ¬ SstfTakesTail s) evs out s) :
    QueueInv evs out s := by
  induction h with
  | start h =>
    refine ⟨[], .empty, ⟨⟨h.head, h.tail, List.nodup_nil⟩, ?_⟩, h.pages⟩
    exact fun e he => absurd he (by simp)
  | add _ _ _ _ _ hrun ih => exact ih.add hrun
  | refuse _ _ _ _ _ hrun ih => exact ih.refuse hrun
  | schedule _ hC hrun ih => exact ih.schedule hC hrun
  | setdisksched _ _ hrun ih => exact ih.elsewhere (setdisksched_elsewhere hrun)
  | release _ ha hrun ih => exact ih.release ha hrun
  | elsewhere _ he ih => exact ih.elsewhere he

/-- On a represented queue the scheduler returns. -/
theorem Represents.schedule_returns (h : Represents s l) (hlen : l.length ≤ ramPages) :
    ∃ r s', scheduleNextRequest s = .ok (r, s', []) := by
  rw [scheduleNextRequest_run]
  cases l with
  | nil =>
    cases s.diskSchedPolicy with
    | fcfs => exact ⟨_, _, scheduleFcfs_nil h.linked⟩
    | sstf => exact ⟨_, _, scheduleSstf_nil h.linked⟩
  | cons e l =>
    cases s.diskSchedPolicy with
    | fcfs => exact ⟨_, _, scheduleFcfs_cons h.linked⟩
    | sstf => grind [scheduleSstf_cons, h.linked.chain]

/-- In every run in which SSTF is never called on a queue whose last of
several requests it prefers, the linked structure represents the
pending requests of the abstract queue, nothing is lost or handed out
twice, and the next call of the scheduler returns. -/
theorem queue_refines_list {evs : List QueueEvent} {out : List Nat}
    {s : Kernel} (h : QueueRun (fun s => ¬ SstfTakesTail s) evs out s) :
    ∃ l, ListQueue evs l ∧ Represents s l ∧ (addedIn evs).Perm (returnedIn evs ++ l)
      ∧ ∃ r s', scheduleNextRequest s = .ok (r, s', []) := by
  obtain ⟨l, hl, hrep, hpages⟩ := h.inv
  have hlen : l.length ≤ ramPages := by simpa using hpages.length_le
  exact ⟨l, hl, hrep, hl.conserves, hrep.schedule_returns hlen⟩

/-- Three free pages, an empty queue. -/
def threePages : Kernel :=
  Kernel.initial 0x80020000 0x80001000 [0x80030000, 0x80031000, 0x80032000]

theorem threePages_start : QueueStart threePages := ⟨rfl, rfl, by decide, by decide⟩

/-- Two requests, of which SSTF takes the first. -/
theorem queue_refines_list_two : ∃ evs out s, QueueRun (fun s => ¬ SstfTakesTail s) evs out s
      ∧ (returnedIn evs).length = 1
      ∧ ∃ l, ListQueue evs l ∧ Represents s l ∧ (addedIn evs).Perm (returnedIn evs ++ l)
        ∧ ∃ r s', scheduleNextRequest s = .ok (r, s', []) := by
  have h1 : QueueRun (fun s => ¬ SstfTakesTail s) _ _ _ :=
    .add .write 0 0 none (.start threePages_start) rfl
  have h2 : QueueRun (fun s => ¬ SstfTakesTail s) _ _ _ := .add .write 8 0 none h1 rfl
  have h3 : QueueRun (fun s => ¬ SstfTakesTail s) _ _ _ := .setdisksched 1 h2 rfl
  have h4 := QueueRun.schedule h3 (by
    rintro ⟨-, l, a, -, hc, hmin⟩
    -- the chain is the two pages, and the second is the farther one
    have hl : l ++ [a] = [0x80030000] ++ [0x80031000] := hc.unique ⟨rfl, rfl, rfl⟩
    obtain ⟨rfl, ha⟩ := List.append_inj' hl rfl
    cases ha
    exact absurd (hmin _ (List.mem_singleton.mpr rfl)) (by decide)) rfl
  exact ⟨_, _, _, h4, rfl, queue_refines_list h4⟩

/-- SSTF takes the second of two requests, and the third is linked
behind it: the queue then runs empty with one request never handed
out. -/
theorem sstf_loses_request : ∃ evs out s, QueueRun (fun _ => True) evs out s
      ∧ (addedIn evs).length = 3 ∧ (returnedIn evs).length = 2
      ∧ (∃ s', scheduleNextRequest s = .ok (none, s', []))
      ∧ ¬ ∃ l, ListQueue evs l ∧ Represents s l := by
  have h1 : QueueRun (fun _ => True) _ _ _ := .add .write 8 0 none (.start threePages_start) rfl
  have h2 : QueueRun (fun _ => True) _ _ _ := .add .write 0 0 none h1 rfl
  have h3 : QueueRun (fun _ => True) _ _ _ := .setdisksched 1 h2 rfl
  have h4 : QueueRun (fun _ => True) _ _ _ := .schedule h3 trivial rfl
  have h5 : QueueRun (fun _ => True) _ _ _ := .add .write 4 0 none h4 rfl
  have h6 : QueueRun (fun _ => True) _ _ _ := .schedule h5 trivial rfl
  refine ⟨_, _, _, h6, rfl, rfl, ⟨_, rfl⟩, ?_⟩
  rintro ⟨l, hl, hrep⟩
  have hlen := hl.conserves.length_eq
  rw [List.length_append] at hlen
  have hone : l.length = 1 := by
    have : (3 : Nat) = 2 + l.length := hlen
    omega
  cases l with
  | nil => cases hone
  | cons e l => exact nomatch hrep.linked.head

end GemOS
