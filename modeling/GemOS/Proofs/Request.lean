/-
A disk request of a caller that runs alone: with nothing pending, what
`submitRequest` enqueues is what it serves, and the page of the request
goes back to the free list.
-/
import GemOS.Proofs.QueueRefinement
import GemOS.Proofs.Vm

namespace GemOS

open Function Prog

/-- No request is pending. -/
def Idle (s : Kernel) : Prop := Linked s []

variable {s s' : Kernel} {req : Nat} {t : List (Mark × Kernel)}

theorem idle_iff : Idle s ↔ s.diskQueueHead = none ∧ s.diskQueueTail = none :=
  ⟨fun h => ⟨h.head, h.tail⟩, fun h => ⟨h.1, h.2, List.nodup_nil⟩⟩

/-- A single pending request is handed out, whatever the policy; only the
links of requests change. -/
theorem schedule_single (h : Linked s [req]) : ∃ rq, (∀ a, (rq a).bare = (s.requests a).bare)
      ∧ scheduleNextRequest s = .ok (some req, { s with
          diskQueueHead := none
          diskQueueTail := none
          requests := rq }, []) := by
  have hnext := scheduleNextRequest_run s
  have hpol : s.diskSchedPolicy = .fcfs ∨ s.diskSchedPolicy = .sstf := by
    cases s.diskSchedPolicy <;> simp
  rcases hpol with hpol | hpol
  · rw [hpol] at hnext
    have hidle := idle_iff.mp h.fcfs
    refine ⟨s.requests, fun _ => rfl, (hnext.trans (scheduleFcfs_cons h)).trans ?_⟩
    rw [show s.fcfsUnlink req = { s with
            diskQueueHead := (s.fcfsUnlink req).diskQueueHead
            diskQueueTail := (s.fcfsUnlink req).diskQueueTail } from rfl,
      hidle.1, hidle.2]
  · rw [hpol] at hnext
    obtain ⟨b, pre, post, hl, hprev, -, hrun⟩ :=
      scheduleSstf_cons h.chain (by simp) (by rw [List.length_singleton]; decide)
    have hlen := congrArg List.length hl
    simp only [List.length_append, List.length_cons, List.length_nil] at hlen
    obtain rfl : pre = [] := List.length_eq_zero_iff.mp (by omega)
    obtain rfl : post = [] := List.length_eq_zero_iff.mp (by omega)
    obtain rfl : req = b.best := by simpa using hl
    obtain ⟨hd, tl, rq, hshape⟩ := sstfUnlink_shape s b
    have hidle := idle_iff.mp (Linked.sstf h hprev (.inl rfl))
    have hbare := sstfUnlink_bare s b
    rw [hshape] at hidle hrun hbare
    obtain ⟨rfl, rfl⟩ : hd = none ∧ tl = none := hidle
    exact ⟨rq, hbare, hnext.trans hrun⟩

/-- What a request of a lone caller leaves behind: the pages are where
they were, up to their order, and nothing is pending. -/
structure Served (s s' : Kernel) : Prop where
  shape : ∃ fl hd m e rq heads rd wr tot ops proc, s' = { s.withPages fl hd m e with
      requests := rq
      currentDiskHead := heads
      diskReads := rd
      diskWrites := wr
      totalDiskLatency := tot
      diskOperations := ops
      proc := proc }
  perm : (s'.freelist ++ s'.held).Perm (s.freelist ++ s.held)
  mem : ∀ pa, pa ∉ s.freelist ++ s.held → s'.mem pa = s.mem pa
  procs : ∀ q, (s'.proc q).bare = (s.proc q).bare
  env : s.env = [] → s'.env = []

theorem Served.interfered (s : Kernel) : Served s s.interfered := by
  obtain ⟨fl, hd, m, e, hs, hp⟩ := s.interfered_shape
  refine ⟨⟨fl, hd, m, e, s.requests, s.currentDiskHead, s.diskReads,
    s.diskWrites, s.totalDiskLatency, s.diskOperations, s.proc, hs⟩, ?_,
    fun pa hpa => s.interfered_mem hpa, fun q => by rw [hs], fun he => ?_⟩
  · rw [hs]
    exact hp
  · rw [s.interfered_of_env_nil he]
    exact he

/-- A page popped off the list and pushed back. -/
theorem Served.popPush {rest : List Nat} (hfree : s.freelist = req :: rest) :
    Served s ((s.popped req rest).push req) := by
  refine ⟨⟨req :: rest, s.held, _, s.env, s.requests, s.currentDiskHead,
    s.diskReads, s.diskWrites, s.totalDiskLatency, s.diskOperations, s.proc,
    rfl⟩, ?_, ?_, fun _ => rfl, fun he => he⟩
  · rw [hfree]
    exact .refl _
  · intro pa hpa
    have hne : pa ≠ req := by
      rintro rfl
      exact hpa (by rw [hfree]; simp)
    show update (update s.mem req _) req _ pa = s.mem pa
    rw [update_of_ne hne, update_of_ne hne]

theorem Served.trans {s1 s2 s3 : Kernel} (h : Served s1 s2) (h' : Served s2 s3) : Served s1 s3 := by
  obtain ⟨fl, hd, m, e, rq, x1, x2, x3, x4, x5, pr, hs⟩ := h.shape
  obtain ⟨fl', hd', m', e', rq', y1, y2, y3, y4, y5, pr', hs'⟩ := h'.shape
  refine ⟨⟨fl', hd', m', e', rq', y1, y2, y3, y4, y5, pr', ?_⟩,
    h'.perm.trans h.perm, ?_, fun q => (h'.procs q).trans (h.procs q), fun he => h'.env (h.env he)⟩
  · rw [hs', hs]
    rfl
  · intro pa hpa
    rw [h'.mem pa fun hin => hpa (h.perm.mem_iff.mp hin), h.mem pa hpa]

/-- Serving the single pending request and freeing its page. -/
theorem serveNext_ok {u : Unit} (h : Linked s [req]) (hrun : serveNext s = .ok (u, s', t)) :
    t = [] ∧ ∃ rq heads rd wr tot ops proc, s' = { s.push req with
        diskQueueHead := none
        diskQueueTail := none
        requests := rq
        currentDiskHead := heads
        diskReads := rd
        diskWrites := wr
        totalDiskLatency := tot
        diskOperations := ops
        proc := proc }
      ∧ ∀ q, (proc q).bare = (s.proc q).bare := by
  obtain ⟨rq, -, hsched⟩ := schedule_single h
  unfold serveNext at hrun
  rw [bind_run_quiet hsched] at hrun
  simp only [processDiskRequest, modify_bind_run] at hrun
  obtain ⟨rfl, rfl⟩ := kfree_ok hrun
  obtain ⟨heads, rd, wr, tot, ops, proc, hs, hproc⟩ := Kernel.processed_shape
    { s with diskQueueHead := none, diskQueueTail := none, requests := rq } req
  refine ⟨rfl, rq, heads, rd, wr, tot, ops, proc, ?_, hproc⟩
  rw [hs]
  rfl

section

variable {type : DiskOp} {block : Int} {buffer : Nat} {p : Option ProcId} {r : Int}

/-- How a request ends: no page is free for it, the block has no place on
the disks, or it is queued. -/
inductive Submitted (type : DiskOp) (block : Int) (buffer : Nat) (p : Option ProcId)
    (s : Kernel) : Int → Kernel → Notes Mark Kernel → Prop
  | dry : s.interfered.freelist = [] → Submitted type block buffer p s (-1) s.interfered []
  | refused {req : Nat} {rest : List Nat} : s.interfered.freelist = req :: rest →
      raidMapLogicalToPhysical s.raidMode block = none →
      Submitted type block buffer p s (-1) ((s.interfered.popped req rest).push req) []
  | queued {req : Nat} {rest : List Nat} {loc : Int × Int} {s' : Kernel}
      {t : Notes Mark Kernel} : s.interfered.freelist = req :: rest →
      raidMapLogicalToPhysical s.raidMode block = some loc →
      serveNext ((s.interfered.popped req rest).enqueue req
        ((s.interfered.popped req rest).newRequest type block loc buffer p)) = .ok ((), s', t) →
      Submitted type block buffer p s 0 s' t

theorem submitRequest_cases (h : submitRequest type block buffer p s = .ok (r, s', t)) :
    Submitted type block buffer p s r s' t := by
  unfold submitRequest addDiskRequest at h
  obtain ⟨r1, s1, t1, t2, hadd, hrest, rfl⟩ := bind_ok h
  obtain ⟨r2, s2, t3, t4, hreq, hret, rfl⟩ := bind_ok hadd
  obtain ⟨rfl, ⟨hnil, rfl, rfl⟩ | ⟨req, rest, hfree, ⟨rfl, hplace, rfl⟩ |
    ⟨loc, rfl, hplace, rfl⟩⟩⟩ := addRequest_ok hreq
  · cases hret
    cases hrest
    exact .dry hnil
  · cases hret
    cases hrest
    exact .refused hfree hplace
  · cases hret
    simp only [ne_eq, not_true_eq_false, if_false] at hrest
    obtain ⟨u, s3, t5, t6, hserve, hret', rfl⟩ := bind_ok hrest
    cases hret'
    simp only [List.append_nil, List.nil_append]
    exact .queued hfree hplace hserve

/-- What `submitRequest` can have done when nothing was pending. -/
theorem submitRequest_ok (hidle : Idle s)
    (h : submitRequest type block buffer p s = .ok (r, s', t)) :
    t = [] ∧ (r = 0 ∨ r = -1) ∧ Served s s' := by
  cases submitRequest_cases h with
  | dry _ => exact ⟨rfl, .inr rfl, .interfered s⟩
  | refused hfree _ => exact ⟨rfl, .inr rfl, (Served.interfered s).trans (.popPush hfree)⟩
  | @queued req rest loc _ _ hfree _ hserve =>
    -- the request is the only one in the queue
    have hi : Linked (s.interfered.popped req rest) [] := by
      obtain ⟨fl, hd, m, e, hs, -⟩ := s.interfered_shape
      rw [hs]
      exact Linked.of_eq hidle rfl rfl rfl
    have hl := hi.enqueue (a := req) (r := (s.interfered.popped req
      rest).newRequest type block loc buffer p) (by simp) rfl
    obtain ⟨rfl, rq, heads, rd, wr, tot, ops, proc, rfl, hproc⟩ := serveNext_ok hl hserve
    refine ⟨rfl, .inl rfl, (Served.interfered s).trans ?_⟩
    have hpp := Served.popPush hfree
    have htail : (s.interfered.popped req rest).diskQueueTail = none := (idle_iff.mp hi).2
    have hhead : (s.interfered.popped req rest).diskQueueHead = none := (idle_iff.mp hi).1
    simp only [Kernel.enqueue, htail] at hproc ⊢
    refine ⟨⟨req :: rest, s.interfered.held,
      ((s.interfered.popped req rest).push req).mem, s.interfered.env, rq,
      heads, rd, wr, tot, ops, proc, ?_⟩, hpp.perm, hpp.mem, hproc, hpp.env⟩
    have hhead' : s.interfered.diskQueueHead = none := hhead
    have htail' : s.interfered.diskQueueTail = none := htail
    simp only [Kernel.withPages, Kernel.push, Kernel.popped, hhead', htail']

end

end GemOS
