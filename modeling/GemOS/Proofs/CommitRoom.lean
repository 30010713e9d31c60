/-
How many buffers a commit needs.

Here the systems of `Proofs.BufCache` and `Proofs.LogSpace` meet: at the
start of a commit the log is some log that the operations can build, the
cache is some cache that processes can leave behind, and all that is in
use are the buffers that `log_write` has pinned (`AtCommit`). The commit
needs one buffer more than there are logged blocks. A log that is full
leaves none, since there are as many buffers as a log has blocks.
-/
import GemOS.Proofs.LogSpace
import GemOS.Proofs.Crash

namespace GemOS

open Function Prog

/-- A commit is about to begin: the blocks of the log are cached and
pinned, nobody uses a buffer otherwise, and the rest of the cache agrees
with the disk. -/
structure AtCommit (q : BufSys) (l : Log) : Prop where
  real : 1 ≤ l.dev
  idle : ∀ t, q.call t = .idle
  unlocked : ∀ b, (q.cache.buf b).lock = none
  pins : ∀ b, q.pins b = if (q.cache.buf b).dev = l.dev
    ∧ (q.cache.buf b).blockno ∈ l.lh then 1 else 0
  cached : ∀ x ∈ l.lh, ∃ b, (q.cache.buf b).dev = l.dev
    ∧ (q.cache.buf b).blockno = x ∧ (q.cache.buf b).valid = true
  clean : ∀ b, (q.cache.buf b).dev = l.dev →
    (q.cache.buf b).valid = true → (q.cache.buf b).blockno ∉ l.lh →
    (q.cache.buf b).data = q.cache.disk (q.cache.buf b).blockno
  home : ∀ x ∈ l.lh, x < 2 ^ 32 ∧ (x < l.start ∨ l.start + logblocks < x)
  head : headBlocks (q.cache.disk l.start) = []

section room

variable {q : BufSys} {l : Log} {t : ProcId}

/-- What a reader finds in block `x`. -/
noncomputable def Bcache.view (c : Bcache) (dev x : Nat) : Block :=
  open Classical in
  if h : ∃ b, (c.buf b).dev = dev ∧ (c.buf b).blockno = x ∧ (c.buf b).valid = true
  then (c.buf h.choose).data else c.disk x

theorem view_of_valid {c : Bcache} {dev : Nat} (hdev : 1 ≤ dev)
    (hu : c.Unique) {b : BufId} (hb : (c.buf b).dev = dev) (hv : (c.buf b).valid = true) :
    c.view dev (c.buf b).blockno = (c.buf b).data := by
  have hex : ∃ a, (c.buf a).dev = dev
      ∧ (c.buf a).blockno = (c.buf b).blockno ∧ (c.buf a).valid = true :=
    ⟨b, hb, rfl, hv⟩
  obtain ⟨hd, hn, -⟩ := hex.choose_spec
  unfold Bcache.view
  rw [dif_pos hex, hu hex.choose b (hd.symm ▸ hdev) (hd.trans hb.symm) hn]

theorem AtCommit.sole (h : AtCommit q l) (hq : BufInv q) :
    Sole t l.dev l.lh.toFinset (q.cache.view l.dev) ∅ q.cache := by
  refine ⟨h.real, hq.listed, hq.unique, fun b => ?_, fun b => ?_,
    fun b hb => absurd hb (Finset.notMem_empty b), fun x hx => h.cached x (List.mem_toFinset.mp hx),
    fun b _ hd hv => (view_of_valid h.real hq.unique hd hv).symm, fun x hx => ?_⟩
  · rw [if_neg (Finset.notMem_empty b)]
    exact h.unlocked b
  · have hunder : q.underway b = 0 := by
      refine tally_eq_zero.mpr fun t _ => ?_
      rw [h.idle t]
      rfl
    have hheld : (q.cache.buf b).held = 0 := by
      unfold Buf.held
      rw [h.unlocked b]
      rfl
    rw [hq.refs b, hunder, hheld, h.pins b, if_neg (Finset.notMem_empty b)]
    unfold Buf.pinned
    simp only [List.mem_toFinset]
    split <;> rfl
  · rw [List.mem_toFinset] at hx
    unfold Bcache.view
    split
    · grind [h.clean]
    · rfl

/-- The transaction that the commit is about. -/
noncomputable def AtCommit.txn (h : AtCommit q l) (hnd : l.lh.Nodup)
    (hlen : l.lh.length ≤ logblocks) : Txn where
  start := l.start
  lh := l.lh
  old := q.cache.disk
  new := q.cache.view l.dev
  nodup := hnd
  fits := hlen
  small := fun x hx => (h.home x hx).1
  home := fun x hx => (h.home x hx).2

theorem AtCommit.ready (h : AtCommit q l) (hq : BufInv q)
    (hnd : l.lh.Nodup) (hlen : l.lh.length ≤ logblocks) : (h.txn hnd hlen).Ready t ⟨q.cache, l⟩ :=
  ⟨rfl, rfl, ⟨_, h.sole hq, fun _ _ => rfl⟩, h.head, fun _ _ => rfl⟩

/-- If there are as many pinned blocks as buffers, all buffers are theirs. -/
theorem Sole.all_pinned {dev : Nat} {P : Finset Nat} {v : Nat → Block}
    {H : Finset BufId} {c : Bcache} (h : Sole t dev P v H c) (hcard : nbuf ≤ P.card) (b : BufId) :
    (c.buf b).dev = dev ∧ (c.buf b).blockno ∈ P := by
  let S : Finset BufId := Finset.univ.filter fun b => (c.buf b).dev = dev ∧ (c.buf b).blockno ∈ P
  have hsub : P ⊆ S.image fun b => (c.buf b).blockno := by
    grind [h.cached]
  have hle := (Finset.card_le_card hsub).trans Finset.card_image_le
  have hall : S = Finset.univ := by
    refine Finset.eq_univ_of_card S (Nat.le_antisymm (Finset.card_le_univ S) ?_)
    rw [Fintype.card_fin]
    exact hcard.trans hle
  have hb : b ∈ S := hall ▸ Finset.mem_univ b
  exact (Finset.mem_filter.mp hb).2

/-- A commit with no buffer left panics at its first `bread`. -/
theorem wp_commit_full {v : Nat → Block} {c : Bcache} (h : Sole t l.dev l.lh.toFinset v ∅ c)
    (hhome : ∀ x ∈ l.lh, x < l.start ∨ l.start + logblocks < x)
    (hcard : nbuf ≤ l.lh.toFinset.card) :
    wp (fun e => e.why = .panic "bget: no buffers") (commit t) (fun _ _ => False) ⟨c, l⟩ := by
  have hpinned := h.all_pinned hcard
  have hne : 0 < l.lh.length :=
    (Nat.lt_of_lt_of_le (by decide) hcard).trans_le l.lh.toFinset_card_le
  refine .get_bind (.ite (fun _ => .seq (.get_bind ?_)) fun hn => absurd hne hn)
  -- the first round of write_log reads the first block of the log
  dsimp only
  cases hlh : l.lh with
  | nil => rw [hlh] at hne; exact absurd hne (Nat.lt_irrefl 0)
  | cons x rest =>
    have hlog : l.start + 0 + 1 ∉ l.lh.toFinset := by
      intro hmem
      have := hhome _ (List.mem_toFinset.mp hmem)
      have : 1 ≤ logblocks := by decide
      omega
    refine .get_bind (wp_onBio_bind (.seq (wp_bget h.listed ?_ ?_ fun _ _ => rfl)))
    · intro b hb
      have hbn := (of_decide_eq_true hb).2
      exact absurd (hbn ▸ (hpinned b).2) hlog
    · grind [h.refs, Buf.pinned]

end room

/-- For every log that operations can build and every cache that processes
can leave behind: a commit finds no buffer exactly when there are as many
logged blocks as buffers. Otherwise it stops only when the power goes. -/
theorem commit_room_iff {m : Notes Empty BufSys} {q : BufSys}
    {n : Notes Empty (LogSys ProcId)} {s : LogSys ProcId} {t : ProcId}
    (hq : BufRuns m q) (hs : LogRuns n s) (hat : AtCommit q s.log) :
    ((∃ e, commit t ⟨q.cache, s.log⟩ = .error e
        ∧ e.why = .panic "bget: no buffers") ↔ s.log.lh.length = nbuf)
      ∧ (s.log.lh.length ≠ nbuf →
        ∀ e, commit t ⟨q.cache, s.log⟩ = .error e → e.why = .powerLoss) := by
  obtain ⟨A, hA⟩ := LogRuns.inv hs
  have hroom := hA.room
  have hlen : s.log.lh.length ≤ logblocks := by omega
  have hcard : s.log.lh.toFinset.card = s.log.lh.length := List.toFinset_card_of_nodup hA.nodup
  have hwp := Txn.wp_commit (hat.ready (t := t) hq.inv hA.nodup hlen)
  have hpower : s.log.lh.length ≠ nbuf →
      ∀ e, commit t ⟨q.cache, s.log⟩ = .error e → e.why = .powerLoss := by
    intro hne e hrun
    rcases (hwp.error hrun).1 with hstop | ⟨-, hfull⟩
    · exact hstop.1
    · change nbuf ≤ s.log.lh.toFinset.card at hfull
      rw [hcard] at hfull
      exact absurd (Nat.le_antisymm hlen hfull) hne
  refine ⟨⟨fun ⟨e, hrun, hwhy⟩ => ?_, fun hfull => ?_⟩, hpower⟩
  · by_contra hne
    rw [hpower hne e hrun] at hwhy
    cases hwhy
  · exact (wp_commit_full (hat.sole hq.inv) (fun x hx => (hat.home x hx).2)
      (by rw [hcard, hfull])).fails

-- ======== a full log

section reach

variable {n : Notes Empty BufSys} {c c' : Bcache} {call : ProcId → BufCall}
  {pins : BufId → Nat} {t : ProcId} {b : BufId}

variable {m : Notes Empty Bcache}

theorem onCache_ok (call : ProcId → BufCall) (pins : BufId → Nat) {α : Type}
    {x : BioM α} {a : α} (h : x c = .ok (a, c', m)) :
    ∃ k, onCache x ⟨c, call, pins⟩ = .ok (a, ⟨c', call, pins⟩, k) := by
  unfold onCache zoom
  rw [h]
  exact ⟨_, rfl⟩

/-- A section on the cache after which `t` is at another point. -/
theorem thenCall_ok (call : ProcId → BufCall) (pins : BufId → Nat)
    (t : ProcId) {α : Type} {x : BioM α} {a : α} (h : x c = .ok (a, c', m)) (k : α → BufCall) :
    ∃ j, (onCache x >>= fun a => setCall t (k a)) ⟨c, call, pins⟩
      = .ok ((), ⟨c', update call t (k a), pins⟩, j) := by
  obtain ⟨j, hj⟩ := onCache_ok call pins h
  exact ⟨_, ok_bind hj (modify_run ..)⟩

/-- One more step; the cache leaves no notes. -/
theorem BufRuns.next {s s' : BufSys} (h : BufRuns n s) (o : BufOp)
    (hrun : ∃ k, o.prog s = .ok ((), s', k)) : ∃ n', BufRuns n' s' := by
  obtain ⟨k, hk⟩ := hrun
  exact ⟨_, .step o h hk fun _ _ => trivial⟩

/-- A process that is not interrupted reads a block. -/
theorem BufRuns.bread {dev x : Nat} (h : BufRuns n ⟨c, call, pins⟩) (ht : call t = .idle)
    (hrun : GemOS.bread t dev x c = .ok (b, c', m)) : ∃ n', BufRuns n' ⟨c', call, pins⟩ := by
  obtain ⟨b1, c1, _, _, hget, hrun, -⟩ := bind_ok hrun
  obtain ⟨⟨⟩, c2, _, _, hacq, hrun, -⟩ := bind_ok hrun
  obtain ⟨⟨⟩, c3, _, _, hread, hrun, -⟩ := bind_ok hrun
  cases hrun
  have h1 := thenCall_ok call pins t hget .getting
  have h2 := thenCall_ok (update call t (.getting b)) pins t hacq fun _ => .reading b
  have h3 := thenCall_ok (update call t (.reading b)) pins t hread fun _ => .idle
  rw [update_idem] at h2 h3
  obtain ⟨_, hr1⟩ := h.next (.find t dev x)
    (by simpa only [BufOp.prog, whenIdle, get_bind_run, ht] using h1)
  obtain ⟨_, hr2⟩ := hr1.next (.lock t)
    (by simpa only [BufOp.prog, get_bind_run, update_self] using h2)
  obtain ⟨n', hr3⟩ := hr2.next (.read t)
    (by simpa only [BufOp.prog, get_bind_run, update_self] using h3)
  rw [← ht, update_eq_self] at hr3
  exact ⟨n', hr3⟩

/-- A process that is not interrupted gives a buffer back. -/
theorem BufRuns.brelse
    (h : BufRuns n ⟨c, call, pins⟩) (ht : call t = .idle) (hlock : (c.buf b).lock = some t)
    (hrun : GemOS.brelse t b c = .ok ((), c', m)) : ∃ n', BufRuns n' ⟨c', call, pins⟩ := by
  obtain ⟨⟨⟩, c1, _, _, hunlock, hunref, -⟩ := bind_ok hrun
  have h1 := thenCall_ok call pins t hunlock fun _ => .releasing b
  have h2 := thenCall_ok (update call t (.releasing b)) pins t hunref fun _ => .idle
  rw [update_idem] at h2
  obtain ⟨_, hr1⟩ := h.next (.unlock t b) (by
    simpa only [BufOp.prog, whenHolding, whenIdle, get_bind_run, ht, hlock, if_true] using h1)
  obtain ⟨n', hr2⟩ := hr1.next (.unref t)
    (by simpa only [BufOp.prog, get_bind_run, update_self] using h2)
  rw [← ht, update_eq_self] at hr2
  exact ⟨n', hr2⟩

theorem BufRuns.bpin (h : BufRuns n ⟨c, call, pins⟩) (hrun : GemOS.bpin b c = .ok ((), c', m)) :
    ∃ n', BufRuns n' ⟨c', call, update pins b (pins b + 1)⟩ := by
  obtain ⟨k, hk⟩ := onCache_ok call pins hrun
  refine h.next (.pin b) ⟨k ++ [], ?_⟩
  simp only [BufOp.prog, get_bind_run]
  exact ok_bind hk (modify_run ..)

end reach

/-- Processes can leave the blocks `xs` pinned in the cache of a disk of
zeros, and nothing else in use. -/
def Pinnable (xs : List Nat) : Prop :=
  ∃ n c pins, BufRuns n ⟨c, fun _ => .idle, pins⟩ ∧ c.disk = (fun _ _ => 0)
    ∧ Sole 0 1 xs.toFinset (fun _ _ => 0) ∅ c

theorem pinnable_nil : Pinnable [] := by
  refine ⟨[], binit (fun _ _ => 0) 0, fun _ => 0, .init ⟨⟨_, _, rfl⟩,
    fun _ => rfl, fun _ => rfl⟩, (binit_disk _ _).1, ?_⟩
  exact binit_sole (Nat.le_refl 1)

/-- One more block is read, logged and given back. -/
theorem pinnable_cons {xs : List Nat} {x : Nat} (h : Pinnable xs)
    (hx : x ∉ xs) (hlen : xs.length < nbuf) : Pinnable (x :: xs) := by
  obtain ⟨n, c, pins, hr, hdisk, hsole⟩ := h
  have hxP : x ∉ xs.toFinset := fun hm => hx (List.mem_toFinset.mp hm)
  have hcard := xs.toFinset_card_le
  have hbread := hsole.bread (x := x) (E := fun _ => False) (by simp)
    (fun _ hfull => by rw [Finset.card_empty] at hfull; omega) fun b c' g => g
  obtain ⟨b, c1, m1, hrun1, g⟩ := hbread.total
  obtain ⟨n1, hr1⟩ := hr.bread rfl hrun1
  have hb : b ∈ insert b (∅ : Finset BufId) := Finset.mem_insert_self b ∅
  have hpin := g.alone.bpin (E := fun _ => False) hb g.blockno hxP
    (Q := fun _ c2 => c2.disk = c1.disk ∧ (∀ a, (c2.buf a).data = (c1.buf a).data
        ∧ (c2.buf a).blockno = (c1.buf a).blockno)
      ∧ Sole 0 1 (insert x xs.toFinset) (fun _ _ => 0) (insert b ∅) c2)
    fun c2 hdisk2 _ hdata2 h2 => ⟨hdisk2, hdata2, by
      rw [g.data, update_eq_self_iff.mpr rfl] at h2
      exact h2⟩
  obtain ⟨⟨⟩, c2, m2, hrun2, hdisk2, hdata2, h2⟩ := hpin.total
  obtain ⟨n2, hr2⟩ := hr1.bpin hrun2
  have hrel := h2.brelse (E := fun _ => False) hb (Q := fun _ c3 => c3.disk = c2.disk
      ∧ Sole 0 1 (insert x xs.toFinset) (fun _ _ => 0) ∅ c3)
    (by rw [(hdata2 b).1, g.data])
    fun c3 hdisk3 _ _ h3 => ⟨hdisk3, by
      rw [Finset.erase_insert (Finset.notMem_empty b)] at h3
      exact h3⟩
  obtain ⟨⟨⟩, c3, m3, hrun3, hdisk3, h3⟩ := hrel.total
  have hlock : (c2.buf b).lock = some 0 := by rw [h2.lock b, if_pos hb]
  obtain ⟨n3, hr3⟩ := hr2.brelse rfl hlock hrun3
  refine ⟨n3, c3, _, hr3, ?_, ?_⟩
  · rw [hdisk3, hdisk2, g.disk, hdisk]
  · rw [List.toFinset_cons]
    exact h3

theorem pinnable {xs : List Nat} (hnd : xs.Nodup) (hlen : xs.length ≤ nbuf) : Pinnable xs := by
  induction xs with
  | nil => exact pinnable_nil
  | cons x xs ih => grind [List.nodup_cons, List.length_cons, pinnable_cons]

/-- A cache and a log with the same blocks. -/
theorem Pinnable.atCommit {l : Log} (h : Pinnable l.lh) (hdev : l.dev = 1)
    (hhome : ∀ x ∈ l.lh, x < 2 ^ 32 ∧ (x < l.start ∨ l.start + logblocks < x)) :
    ∃ n q, BufRuns n q ∧ AtCommit q l := by
  obtain ⟨n, c, pins, hr, hdisk, hsole⟩ := h
  have hunlocked : ∀ b, (c.buf b).lock = none := by
    intro b
    rw [hsole.lock b, if_neg (Finset.notMem_empty b)]
  refine ⟨n, _, hr, hdev ▸ Nat.le_refl 1, fun _ => rfl, hunlocked,
    fun b => ?_, fun x hx => ?_, fun b hd hv hno => ?_, hhome, ?_⟩
  · -- the references are the pins, and those of the logged blocks
    have hrefs := hr.inv.refs b
    have hunder : BufSys.underway ⟨c, fun _ => .idle, pins⟩ b = 0 :=
      tally_eq_zero.mpr fun _ _ => rfl
    have hheld : (c.buf b).held = 0 := by
      unfold Buf.held
      rw [hunlocked b]
      rfl
    change (c.buf b).refcnt = (pins b : Int) + (c.buf b).held + _ at hrefs
    rw [hsole.refs b, hunder, hheld, if_neg (Finset.notMem_empty b)] at hrefs
    unfold Buf.pinned at hrefs
    simp only [List.mem_toFinset] at hrefs
    rw [hdev]
    dsimp only
    split at hrefs
    · next hp =>
      rw [if_pos hp]
      omega
    · next hp =>
      rw [if_neg hp]
      omega
  · rw [hdev]
    exact hsole.cached x (List.mem_toFinset.mpr hx)
  · grind [hsole.data]
  · dsimp only
    rw [hdisk]
    show headBlocks (fun _ => 0) = []
    decide

/-- The three operations of `threeShares` end, the last one commits. -/
def thirtyBlocks : List (LogOp ProcId) :=
  threeShares ++ [.endOp 0, .endOp 1, .endOp 2]

/-- Thirty logged blocks, thirty pinned buffers: the commit of a
transaction that `begin_op` has admitted finds no buffer. -/
theorem commit_out_of_buffers : ∃ m q n s, BufRuns m q ∧ LogRuns n s ∧ AtCommit q s.log
      ∧ s.pos (2 : ProcId) = .committing
      ∧ ∃ e, commit 2 ⟨q.cache, s.log⟩ = .error e ∧ e.why = .panic "bget: no buffers" := by
  obtain ⟨n, s, hs, hpos, hstart, hdev, hlh⟩ := idleLog_runs.played (P := fun _ s =>
    s.pos 2 = .committing ∧ s.log.start = 2 ∧ s.log.dev = 1
      ∧ s.log.lh = (List.range 30).map (100 + ·))
    (fun _ _ _ _ _ => trivial) thirtyBlocks (by decide +kernel)
  have hpin : Pinnable s.log.lh := by
    rw [hlh]
    exact pinnable (by decide) (by decide)
  obtain ⟨m, q, hq, hat⟩ := hpin.atCommit hdev (by
    rw [hlh, hstart]
    decide)
  refine ⟨m, q, n, s, hq, hs, hat, hpos, ?_⟩
  obtain ⟨A, hA⟩ := LogRuns.inv hs
  have hcard := List.toFinset_card_of_nodup hA.nodup
  exact (wp_commit_full (hat.sole hq.inv) (fun x hx => (hat.home x hx).2)
    (by rw [hcard, hlh]; decide)).fails

/-- A commit of ten blocks. -/
theorem commit_room_iff_ten : ∃ m q n, ∃ s : LogSys ProcId, BufRuns m q ∧ LogRuns n s
      ∧ AtCommit q s.log ∧ s.log.lh.length = 10
      ∧ ∀ e, commit 0 ⟨q.cache, s.log⟩ = .error e → e.why = .powerLoss := by
  obtain ⟨n, s, hs, hstart, hdev, hlh⟩ := idleLog_runs.played (P := fun _ s =>
    s.log.start = 2 ∧ s.log.dev = 1 ∧ s.log.lh = (List.range 10).map (100 + ·))
    (fun _ _ _ _ _ => trivial)
    (.beginOp 0 :: (List.range 10).map (fun i => .logWrite 0 (100 + i))) (by decide +kernel)
  have hpin : Pinnable s.log.lh := by
    rw [hlh]
    exact pinnable (by decide) (by decide)
  obtain ⟨m, q, hq, hat⟩ := hpin.atCommit hdev (by
    rw [hlh, hstart]
    decide)
  have hten : s.log.lh.length = 10 := by
    rw [hlh]
    decide
  refine ⟨m, q, n, s, hq, hs, hat, hten, (commit_room_iff hq hs hat).2 (by rw [hten]; decide)⟩

end GemOS
