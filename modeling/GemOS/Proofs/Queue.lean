/-
The disk queue as a list: what `add_disk_request`, `schedule_fcfs` and
`schedule_sstf` do to the chain behind `disk_queue_head`.

# The representation

`Linked s l` reads the globals as the list `l` of request addresses in
arrival order: `next` leads from the head through `l`, and the tail
pointer is the last of `l`. Every operation keeps it, with one
exception: `schedule_sstf` resets `disk_queue_tail` only when the queue
has become empty, so unlinking the last of several requests leaves the
tail on a request that is no longer queued (`SstfTakesTail`).

# The walk of `schedule_sstf`

`sstfKey` orders requests as the walk compares them, by latency and then
by level. The walk keeps the best request so far together with its
predecessor; `FirstMin` is its invariant, and the predecessor is the
last node before the split.
-/
import Mathlib.Data.Prod.Lex
import GemOS.Lib.Chain
import GemOS.Proofs.Pages

namespace GemOS

open Function Prog

-- ======== representation

/-- The link of the request at an address. -/
def Kernel.nextOf (s : Kernel) (req : Nat) : Option Nat :=
  (s.requests req).next

/-- A request without its link: what was put in the queue. -/
def DiskRequest.bare (r : DiskRequest) : DiskRequest := { r with next := none }

/-- The queue holds the requests at `l`, in arrival order. -/
structure Linked (s : Kernel) (l : List Nat) : Prop where
  chain : Chain s.nextOf s.diskQueueHead l
  tail : s.diskQueueTail = l.getLast?
  nodup : l.Nodup

/-- How `schedule_sstf` compares requests: by latency, then by the level
of the process. -/
def Kernel.sstfKey (s : Kernel) (req : Nat) : Nat ×ₗ Nat :=
  toLex (s.latencyOf req, (s.requests req).priority)

/-- SSTF is in force and its choice is the last of at least two pending
requests: the one case in which the tail pointer is left behind. -/
def SstfTakesTail (s : Kernel) : Prop :=
  s.diskSchedPolicy = .sstf ∧ ∃ l a, l ≠ [] ∧ Chain s.nextOf s.diskQueueHead (l ++ [a])
    ∧ ∀ b ∈ l, s.sstfKey a < s.sstfKey b

variable {l : List Nat} {s : Kernel} {a : Nat} {r : DiskRequest} {b : Sstf}

theorem Linked.head (h : Linked s l) : s.diskQueueHead = l.head? := h.chain.start

/-- The links of a state whose requests were updated at one address. -/
theorem nextOf_update (s : Kernel) (rq : Nat → DiskRequest) (a : Nat)
    (r : DiskRequest) (hrq : s.requests = update rq a r) :
    s.nextOf = update (fun b => (rq b).next) a r.next := by
  funext b
  unfold Kernel.nextOf
  rw [hrq]
  by_cases hb : b = a
  · rw [hb, update_self, update_self]
  · rw [update_of_ne hb, update_of_ne hb]

-- ======== enqueue

/-- Adding a request elsewhere leaves the others as they were, links
apart. -/
theorem enqueue_bare (s : Kernel) {b : Nat} (r : DiskRequest) (hb : b ≠ a) :
    ((s.enqueue a r).requests b).bare = (s.requests b).bare := by
  unfold Kernel.enqueue
  cases ht : s.diskQueueTail with
  | none => simp only [update_of_ne hb]
  | some tail =>
    by_cases htb : b = tail
    · subst htb
      simp only [update_self, update_of_ne hb]
      rfl
    · simp only [update_of_ne htb, update_of_ne hb]

theorem enqueue_self (h : Linked s l) (ha : a ∉ l) : (s.enqueue a r).requests a = r := by
  unfold Kernel.enqueue
  cases ht : s.diskQueueTail with
  | none => simp only [update_self]
  | some tail => grind [h.tail, update_apply]

/-- `add_disk_request` appends. -/
theorem Linked.enqueue (h : Linked s l) (ha : a ∉ l) (hr : r.next = none) :
    Linked (s.enqueue a r) (l ++ [a]) := by
  have hnd : (l ++ [a]).Nodup := by
    grind [List.nodup_append, h.nodup, List.nodup_singleton, List.mem_singleton]
  rcases List.eq_nil_or_concat l with rfl | ⟨pre, last, rfl⟩
  · have ht : s.diskQueueTail = none := h.tail
    refine ⟨?_, ?_, hnd⟩
    · simp only [Kernel.enqueue, ht]
      refine ⟨rfl, ?_⟩
      simp only [Kernel.nextOf, update_self]
      exact hr
    · simp only [Kernel.enqueue, ht]
      rfl
  · have ht : s.diskQueueTail = some last := by
      rw [h.tail, List.concat_eq_append, List.getLast?_concat]
    have hal : a ≠ last := by
      intro hal
      exact ha (by rw [hal]; simp)
    rw [List.concat_eq_append] at h ha ⊢
    -- the chain is untouched by the new request, then gets it as its end
    have hold : Chain (update s.nextOf a none) s.diskQueueHead (pre ++ [last]) := by
      refine h.chain.congr fun b hb => update_of_ne ?_ _ _
      exact fun hba => ha (hba ▸ hb)
    have hnew := hold.append h.nodup (update_self ..) hal
    refine ⟨?_, ?_, ?_⟩
    · rw [List.append_assoc]
      have hnext : (s.enqueue a r).nextOf = update (update s.nextOf a none) last (some a) := by
        rw [nextOf_update _ (update s.requests a r) last
          { update s.requests a r last with next := some a } (by simp only [Kernel.enqueue, ht])]
        congr 1
        funext b
        by_cases hb : b = a
        · rw [hb, update_self, update_self, hr]
        · rw [update_of_ne hb, update_of_ne hb]
          rfl
      have hhead : (s.enqueue a r).diskQueueHead = s.diskQueueHead := by
        simp only [Kernel.enqueue, ht]
      rw [hnext, hhead]
      exact hnew
    · rw [List.getLast?_concat]
      simp only [Kernel.enqueue, ht]
    · simpa using hnd

-- ======== FCFS

/-- The state after `schedule_fcfs` has dequeued `req`. -/
def Kernel.fcfsUnlink (s : Kernel) (req : Nat) : Kernel :=
  { s with
    diskQueueHead := (s.requests req).next
    diskQueueTail :=
      if (s.requests req).next.isNone then none else s.diskQueueTail }

theorem scheduleFcfs_nil (h : Linked s []) : scheduleFcfs s = .ok (none, s, []) := by
  have hhead : s.diskQueueHead = none := h.head
  simp only [scheduleFcfs, get_bind_run, hhead]
  rfl

theorem scheduleFcfs_cons (h : Linked s (a :: l)) :
    scheduleFcfs s = .ok (some a, s.fcfsUnlink a, []) := by
  have hhead : s.diskQueueHead = some a := h.head
  simp only [scheduleFcfs, get_bind_run, hhead]
  rfl

/-- `schedule_fcfs` removes the first request. -/
theorem Linked.fcfs (h : Linked s (a :: l)) : Linked (s.fcfsUnlink a) l := by
  refine ⟨h.chain.2, ?_, (List.nodup_cons.mp h.nodup).2⟩
  have hnext : (s.requests a).next = l.head? := h.chain.2.start
  cases l with
  | nil =>
    simp only [Kernel.fcfsUnlink, hnext]
    rfl
  | cons b l =>
    simp only [Kernel.fcfsUnlink, hnext, h.tail]
    rfl

-- ======== SSTF

/-- A visit replaces the best request exactly when the key is smaller,
given that the latency carried along is the best request's. -/
theorem sstfVisit_eq (hb : b.minLatency = s.latencyOf b.best) (prev : Option Nat) (curr : Nat) :
    s.sstfVisit prev curr b = if s.sstfKey curr < s.sstfKey b.best then
          { best := curr, prevBest := prev, minLatency := s.latencyOf curr }
        else b := by
  unfold Kernel.sstfVisit Kernel.sstfKey
  rw [hb]
  refine if_congr ?_ rfl rfl
  rw [Prod.Lex.toLex_lt_toLex]

/-- The walk over the rest of the chain: from a first minimum of what it
has seen to a first minimum of the whole queue, with its predecessor. -/
theorem sstfWalk_spec (s : Kernel) (rest : List Nat) :
    ∀ (fuel : Nat) (pre post : List Nat) (b : Sstf) (curr : Option Nat),
      rest.length ≤ fuel → Chain s.nextOf curr rest →
      b.prevBest = pre.getLast? → b.minLatency = s.latencyOf b.best →
      FirstMin s.sstfKey pre b.best post →
      ∃ b' pre' post', s.sstfWalk fuel ((pre ++ b.best :: post).getLast?) curr b = some b'
        ∧ pre' ++ b'.best :: post' = pre ++ b.best :: post ++ rest
        ∧ b'.prevBest = pre'.getLast?
        ∧ FirstMin s.sstfKey pre' b'.best post' := by
  induction rest with
  | nil =>
    intro fuel pre post b curr _ hc hprev _ hmin
    have hcurr : curr = none := hc
    subst hcurr
    refine ⟨b, pre, post, ?_, by rw [List.append_nil], hprev, hmin⟩
    cases fuel <;> rfl
  | cons a rest ih =>
    intro fuel pre post b curr hfuel hc hprev hlat hmin
    obtain ⟨hcurr, hc'⟩ := hc
    subst hcurr
    cases fuel with
    | zero => exact absurd hfuel (by simp)
    | succ fuel =>
      have hfuel' : rest.length ≤ fuel := by simpa using hfuel
      simp only [Kernel.sstfWalk]
      rw [sstfVisit_eq hlat]
      by_cases hlt : s.sstfKey a < s.sstfKey b.best
      · rw [if_pos hlt]
        obtain ⟨b', pre', post', hwalk, hsplit, hrest⟩ := ih fuel (pre ++ b.best :: post) []
            { best := a, prevBest := (pre ++ b.best :: post).getLast?,
              minLatency := s.latencyOf a } (s.requests a).next
            hfuel' hc' rfl rfl (hmin.replace hlt)
        rw [List.getLast?_concat] at hwalk
        exact ⟨b', pre', post', hwalk, by simpa using hsplit, hrest⟩
      · rw [if_neg hlt]
        obtain ⟨b', pre', post', hwalk, hsplit, hrest⟩ :=
          ih fuel pre (post ++ [a]) b (s.requests a).next hfuel' hc' hprev hlat (hmin.keep hlt)
        have hlast : (pre ++ b.best :: (post ++ [a])).getLast? = some a := by
          rw [← List.cons_append, ← List.append_assoc, List.getLast?_concat]
        rw [hlast] at hwalk
        exact ⟨b', pre', post', hwalk, by simpa using hsplit, hrest⟩

/-- A walk that ends had fuel for the whole chain. -/
theorem sstfWalk_fuel (s : Kernel) (rest : List Nat) :
    ∀ (fuel : Nat) (prev curr : Option Nat) (b b' : Sstf),
      Chain s.nextOf curr rest → s.sstfWalk fuel prev curr b = some b' → rest.length ≤ fuel := by
  induction rest with
  | nil => intro fuel prev curr b b' _ _; exact Nat.zero_le _
  | cons a rest ih =>
    rintro fuel prev curr b b' ⟨rfl, hc⟩ hw
    cases fuel with
    | zero => cases hw
    | succ fuel => exact Nat.succ_le_succ (ih fuel _ _ _ _ hc hw)

theorem scheduleSstf_nil (h : Linked s []) : scheduleSstf s = .ok (none, s, []) := by
  have hhead : s.diskQueueHead = none := h.head
  simp only [scheduleSstf, get_bind_run, hhead]
  rfl

/-- `schedule_sstf` unlinks the first request of least key. -/
theorem scheduleSstf_cons (h : Chain s.nextOf s.diskQueueHead l) (hne : l ≠ [])
    (hlen : l.length ≤ ramPages) :
    ∃ b pre post, l = pre ++ b.best :: post ∧ b.prevBest = pre.getLast?
      ∧ FirstMin s.sstfKey pre b.best post
      ∧ scheduleSstf s = .ok (some b.best, s.sstfUnlink b, []) := by
  cases l with
  | nil => exact absurd rfl hne
  | cons a l =>
    have hhead : s.diskQueueHead = some a := h.start
    have hlen' : l.length ≤ ramPages - 1 := by
      rw [List.length_cons] at hlen
      omega
    -- the first round compares the head with itself
    obtain ⟨b, pre, post, hwalk, hsplit, hprev, hmin⟩ := sstfWalk_spec s l (ramPages - 1) [] []
        { best := a, prevBest := none, minLatency := s.latencyOf a }
        (s.requests a).next hlen' h.2 rfl rfl
        ⟨fun x hx => absurd hx (by simp), fun x hx => absurd hx (by simp)⟩
    refine ⟨b, pre, post, by simpa using hsplit.symm, hprev, hmin, ?_⟩
    have hfirst : s.sstfWalk ramPages none (some a)
        { best := a, prevBest := none, minLatency := s.latencyOf a } = some b := by
      rw [← hwalk]
      show s.sstfWalk (ramPages - 1) (some a) (s.requests a).next _ = _
      rw [sstfVisit_eq rfl, if_neg (lt_irrefl _)]
      rfl
    simp only [scheduleSstf, get_bind_run, hhead, hfirst]
    rfl

/-- Unlinking leaves every request as it was, links apart. -/
theorem sstfUnlink_bare (s : Kernel) (b : Sstf) (c : Nat) :
    ((s.sstfUnlink b).requests c).bare = (s.requests c).bare := by
  unfold Kernel.sstfUnlink
  cases b.prevBest with
  | none =>
    by_cases hc : c = b.best
    · subst hc
      simp only [update_self]
      rfl
    · simp only [update_of_ne hc]
  | some prev =>
    by_cases hc : c = b.best <;> by_cases hp : c = prev <;>
      simp [DiskRequest.bare, update_apply, hc, hp]
    all_goals split <;> simp_all

/-- Unlinking touches the queue and nothing else. -/
theorem sstfUnlink_shape (s : Kernel) (b : Sstf) : ∃ head tail requests, s.sstfUnlink b = { s with
          diskQueueHead := head
          diskQueueTail := tail
          requests := requests } := by
  unfold Kernel.sstfUnlink
  cases b.prevBest <;> exact ⟨_, _, _, rfl⟩

/-- `schedule_sstf` bypasses its choice: the chain is the old one without
it. -/
theorem sstfUnlink_chain {pre post : List Nat}
    (h : Chain s.nextOf s.diskQueueHead (pre ++ b.best :: post))
    (hnd : (pre ++ b.best :: post).Nodup) (hprev : b.prevBest = pre.getLast?) :
    Chain (s.sstfUnlink b).nextOf (s.sstfUnlink b).diskQueueHead (pre ++ post) := by
  have hout : b.best ∉ pre ++ post := (List.nodup_cons.mp (List.nodup_middle.mp hnd)).1
  rcases List.eq_nil_or_concat pre with rfl | ⟨q, prev, rfl⟩
  · have hp : b.prevBest = none := hprev
    have hc : Chain s.nextOf (s.requests b.best).next post := h.2
    rw [nextOf_update _ s.requests b.best _ (by simp only [Kernel.sstfUnlink, hp]; rfl)]
    simp only [Kernel.sstfUnlink, hp]
    refine hc.congr fun c hcp => update_of_ne ?_ _ _
    exact fun hcb => hout (hcb ▸ hcp)
  · have hp : b.prevBest = some prev := by
      rw [hprev, List.concat_eq_append, List.getLast?_concat]
    rw [List.concat_eq_append, List.append_assoc] at h hout hnd ⊢
    rw [nextOf_update _ (update s.requests prev
        { s.requests prev with next := (s.requests b.best).next }) b.best _
      (by simp only [Kernel.sstfUnlink, hp]; rfl)]
    simp only [Kernel.sstfUnlink, hp]
    have hby : Chain (update s.nextOf prev (s.nextOf b.best))
        s.diskQueueHead (q ++ prev :: post) := h.bypass hnd
    refine hby.congr fun c hc => ?_
    have hcb : c ≠ b.best := fun hcb => hout (hcb ▸ hc)
    rw [update_of_ne hcb]
    by_cases hcp : c = prev
    · rw [hcp, update_self, update_self]
      rfl
    · rw [update_of_ne hcp, update_of_ne hcp]
      rfl

/-- The tail pointer is right as well, unless the last of several was
taken. -/
theorem Linked.sstf {pre post : List Nat} (h : Linked s (pre ++ b.best :: post))
    (hprev : b.prevBest = pre.getLast?) (hlast : pre = [] ∨ post ≠ []) :
    Linked (s.sstfUnlink b) (pre ++ post) := by
  refine ⟨sstfUnlink_chain h.chain h.nodup hprev, ?_, h.nodup.sublist
    (List.Sublist.append_left (List.sublist_cons_self ..) pre)⟩
  rcases List.eq_nil_or_concat pre with rfl | ⟨q, prev, rfl⟩
  · have hp : b.prevBest = none := hprev
    have hnext : (s.requests b.best).next = post.head? := h.chain.2.start
    simp only [Kernel.sstfUnlink, hp, hnext, h.tail]
    cases post with
    | nil => rfl
    | cons c post => rfl
  · have hp : b.prevBest = some prev := by
      rw [hprev, List.concat_eq_append, List.getLast?_concat]
    have hpost : post ≠ [] := by grind
    rw [List.concat_eq_append, List.append_assoc] at h ⊢
    have hhead : s.diskQueueHead.isNone = false := by
      rw [h.head]
      cases q <;> rfl
    have htail : (q ++ ([prev] ++ b.best :: post)).getLast?
        = post.getLast? := by grind [List.getLast]
    have htail' : (q ++ ([prev] ++ post)).getLast? = post.getLast? := by
      rw [← List.append_assoc]
      exact List.getLast?_append_of_ne_nil _ hpost
    simp only [Kernel.sstfUnlink, hp, hhead, h.tail]
    rw [htail, htail']
    rfl

-- ======== the choice

/-- The pair that SSTF minimises: seek distance, then level. -/
def Kernel.seekKey (s : Kernel) (req : Nat) : Nat ×ₗ Nat :=
  toLex ((s.currentDiskHead (s.requests req).diskId
    - (s.requests req).blockOnDisk).natAbs, (s.requests req).priority)

/-- The rotational delay is the same for all requests. -/
theorem sstfKey_le {x y : Nat} : s.sstfKey x ≤ s.sstfKey y ↔ s.seekKey x ≤ s.seekKey y := by
  simp only [Kernel.sstfKey, Kernel.seekKey, Kernel.latencyOf,
    Kernel.calculateDiskLatency, Prod.Lex.toLex_le_toLex,
    Nat.add_lt_add_iff_right, Nat.add_right_cancel_iff]

theorem seek_firstMin {pre post : List Nat} (h : FirstMin s.sstfKey pre a post) :
    FirstMin s.seekKey pre a post := by
  refine ⟨fun x hx => ?_, fun x hx => sstfKey_le.mp (h.after x hx)⟩
  rw [← not_le, ← sstfKey_le, not_le]
  exact h.before x hx

/-- `schedule_sstf` on any queue: it takes the first request of least
(seek distance, level), and the chain is the old one without it. -/
theorem scheduleSstf_choice (s : Kernel) (l : List Nat) (hne : l ≠ [])
    (hchain : Chain s.nextOf s.diskQueueHead l) (hnd : l.Nodup) (hram : ∀ req ∈ l, RamPage req) :
    ∃ pre a post s', l = pre ++ a :: post ∧ scheduleSstf s = .ok (some a, s', [])
      ∧ FirstMin s.seekKey pre a post
      ∧ Chain s'.nextOf s'.diskQueueHead (pre ++ post)
      ∧ ∀ req, (s'.requests req).bare = (s.requests req).bare := by
  obtain ⟨b, pre, post, rfl, hprev, hmin, hrun⟩ :=
    scheduleSstf_cons hchain hne (length_le_ramPages hnd hram)
  exact ⟨pre, b.best, post, s.sstfUnlink b, rfl, hrun, seek_firstMin hmin,
    sstfUnlink_chain hchain hnd hprev, sstfUnlink_bare s b⟩

/-- Two requests, the second one closer to the head of its disk. -/
def closerSecond : Kernel :=
  let s : Kernel := .initial 0x80020000 0x80001000 []
  (s.enqueue 0x80030000 (s.newRequest .write 32 (0, 8) 0 none)).enqueue
    0x80031000 (s.newRequest .write 16 (0, 4) 0 none)

theorem scheduleSstf_choice_two : ∃ pre a post s', [0x80030000, 0x80031000] = pre ++ a :: post
      ∧ scheduleSstf closerSecond = .ok (some a, s', [])
      ∧ FirstMin closerSecond.seekKey pre a post
      ∧ Chain s'.nextOf s'.diskQueueHead (pre ++ post)
      ∧ ∀ req, (s'.requests req).bare = (closerSecond.requests req).bare :=
  scheduleSstf_choice closerSecond [0x80030000, 0x80031000] (by decide)
    ⟨rfl, rfl, rfl⟩ (by decide) (by decide)

end GemOS
