/-
A crash leaves a transaction done, or not begun.

A `Txn` is what a commit is about: the logged blocks, and for each block
what the disk holds before and what the cache holds. At every moment the
disk is in one of three conditions: `Before` the header is written,
`Committed` from then on until all blocks are home, and `Done`. A commit
goes through them in this order, and a recovery takes a committed disk to
one that is done and leaves the other two as they are; both keep the
condition when they stop half way. So any number of crashes in between
makes no difference.
-/
import GemOS.Proofs.LogWork

namespace GemOS

open Function Prog

/-- A transaction: block `x` of `lh` is to change from `old x` to
`new x`. -/
structure Txn where
  start : Nat
  lh : List Nat
  old : Nat → Block
  new : Nat → Block
  nodup : lh.Nodup
  fits : lh.length ≤ logblocks
  small : ∀ x ∈ lh, x < 2 ^ 32
  home : ∀ x ∈ lh, x < start ∨ start + logblocks < x

namespace Txn

variable {T : Txn} {D : Nat → Block} {t : ProcId} {s : LogState}

def Outside (T : Txn) (x : Nat) : Prop :=
  x < T.start ∨ T.start + logblocks < x

/-- Nothing has happened outside the log. -/
structure Before (T : Txn) (D : Nat → Block) : Prop where
  head : headBlocks (D T.start) = []
  old : ∀ x, T.Outside x → D x = T.old x

/-- The transaction is in the log; some blocks may be home. -/
structure Committed (T : Txn) (D : Nat → Block) : Prop where
  head : headBlocks (D T.start) = T.lh
  logged : ∀ k, (hk : k < T.lh.length) → D (T.start + k + 1) = T.new T.lh[k]
  mixed : ∀ x ∈ T.lh, D x = T.old x ∨ D x = T.new x
  old : ∀ x, T.Outside x → x ∉ T.lh → D x = T.old x

/-- All blocks are home, and the log is empty. -/
structure Done (T : Txn) (D : Nat → Block) : Prop where
  head : headBlocks (D T.start) = []
  new : ∀ x ∈ T.lh, D x = T.new x
  old : ∀ x, T.Outside x → x ∉ T.lh → D x = T.old x

-- ======== the writes

theorem headBlocks_putHead_nil (d : Block) : headBlocks (putHead [] d) = [] :=
  headBlocks_putHead d (by decide) (by simp)

theorem ne_start {x : Nat} (h : T.Outside x) : x ≠ T.start := by
  unfold Outside at h
  omega

/-- Before the commit, the log may be written. -/
theorem Before.log (h : T.Before D) {y : Nat} (d : Block)
    (hy : T.start < y) (hy' : y ≤ T.start + logblocks) : T.Before (update D y d) := by
  refine ⟨?_, fun x hx => ?_⟩
  · rw [update_of_ne (by omega)]
    exact h.head
  · grind [Outside, update_apply, h.old]

/-- An empty header written over an empty header. -/
theorem Before.clear (h : T.Before D) (d : Block) : T.Before (update D T.start (putHead [] d)) := by
  refine ⟨?_, fun x hx => ?_⟩
  · rw [update_self]
    exact headBlocks_putHead_nil d
  · rw [update_of_ne (ne_start hx)]
    exact h.old x hx

/-- When all blocks are home, the log can be emptied. -/
theorem done_clear (hnew : ∀ x ∈ T.lh, D x = T.new x)
    (hold : ∀ x, T.Outside x → x ∉ T.lh → D x = T.old x) (d : Block) :
    T.Done (update D T.start (putHead [] d)) := by
  refine ⟨?_, fun x hx => ?_, fun x hx hno => ?_⟩
  · rw [update_self]
    exact headBlocks_putHead_nil d
  · rw [update_of_ne (ne_start (T.home x hx))]
    exact hnew x hx
  · rw [update_of_ne (ne_start hx)]
    exact hold x hx hno

/-- The write of the header is the commit. -/
theorem Before.commit (h : T.Before D) (d : Block) (hlog : ∀ k, (hk : k < T.lh.length) →
      D (T.start + k + 1) = T.new T.lh[k]) :
    T.Committed (update D T.start (putHead T.lh d)) := by
  refine ⟨?_, fun k hk => ?_, fun x hx => ?_, fun x hx _ => ?_⟩
  · have hfits := T.fits
    rw [update_self]
    refine headBlocks_putHead d ?_ T.small
    have : logblocks < 2 ^ 31 := by decide
    omega
  · rw [update_of_ne (by omega)]
    exact hlog k hk
  · rw [update_of_ne (ne_start (T.home x hx))]
    exact .inl (h.old x (T.home x hx))
  · rw [update_of_ne (ne_start hx)]
    exact h.old x hx

/-- Installing a block once more changes nothing but that block. -/
theorem Committed.install (h : T.Committed D) {k : Nat} (hk : k < T.lh.length) :
    T.Committed (update D T.lh[k] (T.new T.lh[k])) := by
  have hmem : T.lh[k] ∈ T.lh := List.getElem_mem hk
  have hhome := T.home _ hmem
  have hfits := T.fits
  refine ⟨?_, fun j hj => ?_, fun x hx => ?_, fun x hx hno => ?_⟩
  · rw [update_of_ne (by omega)]
    exact h.head
  · rw [update_of_ne (by omega)]
    exact h.logged j hj
  · grind [update_apply, h.mixed]
  · grind [update_apply, h.old]

/-- An empty transaction is done before it begins. -/
theorem Before.done (h : T.Before D) (hlh : T.lh = []) : T.Done D := by
  refine ⟨h.head, fun x hx => ?_, fun x hx _ => h.old x hx⟩
  rw [hlh] at hx
  exact absurd hx List.not_mem_nil

-- ======== commit

/-- The machine at the start of `commit`: the logged blocks are pinned and
have their new contents, nobody uses the cache otherwise. -/
structure Ready (T : Txn) (t : ProcId) (s : LogState) : Prop where
  lh : s.log.lh = T.lh
  start : s.log.start = T.start
  cache : ∃ v, Sole t s.log.dev T.lh.toFinset v ∅ s.cache ∧ ∀ x ∈ T.lh, v x = T.new x
  disk : T.Before s.cache.disk

/-- How a commit that began with power `p` may stop. -/
def CommitStop (T : Txn) (p : Nat) (e : Stop) : Prop :=
  Stops T.lh.toFinset e.why e.left
    ∧ (T.Before e.disk ∧ p ≤ e.left + T.lh.length ∨ T.Committed e.disk ∨ T.Done e.disk)

/-- A commit that returns has emptied the log and unpinned its blocks. -/
structure Over (T : Txn) (t : ProcId) (s s' : LogState) : Prop where
  log : s'.log = { s.log with lh := [] }
  cache : ∃ v, Sole t s.log.dev ∅ v ∅ s'.cache
  disk : T.Done s'.cache.disk

theorem wp_commit (h : T.Ready t s) : wp (T.CommitStop s.cache.power) (GemOS.commit t)
      (fun _ s' => T.Over t s s') s := by
  obtain ⟨hlh, hstart, ⟨v, hsole, hnew⟩, hdisk⟩ := h
  obtain ⟨c, l⟩ := s
  dsimp only at hlh hstart hsole hdisk ⊢
  have hfits := T.fits
  have hmem : ∀ x, x ∈ T.lh.toFinset ↔ x ∈ T.lh := fun x => List.mem_toFinset
  have hlogP : ∀ y, T.start ≤ y → y ≤ T.start + logblocks → y ∉ T.lh.toFinset := by
    intro y h1 h2 hy
    have := T.home y ((hmem y).mp hy)
    omega
  refine .get_bind (.ite (fun hn => ?_) fun hn => .pure ?_)
  · -- write_log
    refine .bind (M := fun _ s => ∃ c1, s = ⟨c1, l⟩ ∧ T.Before c1.disk
        ∧ c.power ≤ c1.power + T.lh.length
        ∧ Sole t l.dev T.lh.toFinset (putLog T.start 0 T.lh v) ∅ c1)
      (.get_bind ?_) fun _ s1 hs1 => ?_
    · dsimp only
      rw [hlh]
      refine wp_writeLogLoop hsole (fun x hx => (hmem x).mpr hx)
        (fun y h1 h2 => hlogP y (by omega) (by omega)) (by omega)
        (K := fun i D p => T.Before D ∧ c.power ≤ p + i)
        ⟨hdisk, Nat.le_refl _⟩ (fun j D p y d hD h1 h2 => ?_)
        (fun j D p w hj hD hw => ⟨hw, .inl ⟨hD.1, ?_⟩⟩) fun c1 hK hsole1 => ⟨c1, rfl, hK.1, ?_, ?_⟩
      · rw [hstart] at h1 h2
        exact ⟨hD.1.log d h1 h2, by omega⟩
      · grind
      · rw [Nat.zero_add] at hK
        exact hK.2
      · rw [← hstart]
        exact hsole1
    obtain ⟨c1, rfl, hbefore, hpow, hsole1⟩ := hs1
    -- the log now holds the new contents
    have hlogged : ∀ k, (hk : k < T.lh.length) → c1.disk (T.start + k + 1) = T.new T.lh[k] := by
      intro k hk
      rw [hsole1.clean _ (hlogP _ (by omega) (by omega)), ← hnew _ (List.getElem_mem hk)]
      exact putLog_copy v hk fun x hx => by
        have := T.home x hx
        omega
    -- write_head
    refine .bind (M := fun _ s => ∃ c2, s = ⟨c2, l⟩ ∧ T.Committed c2.disk
        ∧ ∃ v2, Sole t l.dev T.lh.toFinset v2 ∅ c2)
      (wp_writeHead hsole1 (fun w hw => ⟨hw, .inl ⟨hbefore, hpow⟩⟩)
        fun c2 hdisk2 _ hsole2 => ⟨c2, rfl, ?_, _, hsole2⟩)
      fun _ s2 hs2 => ?_
    · rw [hdisk2, hlh, hstart]
      exact hbefore.commit _ hlogged
    obtain ⟨c2, rfl, hcom, v2, hsole2⟩ := hs2
    have hv2 : ∀ k, (hk : k < T.lh.length) → v2 (T.start + k + 1) = T.new T.lh[k] := by
      intro k hk
      rw [← hsole2.clean _ (hlogP _ (by omega) (by omega))]
      exact hcom.logged k hk
    -- install_trans
    refine .bind (M := fun _ s => ∃ c3, s = ⟨c3, l⟩ ∧ T.Committed c3.disk
        ∧ Sole t l.dev ∅ (putHome T.start 0 T.lh v2) ∅ c3)
      (.get_bind ?_) fun _ s3 hs3 => ?_
    · dsimp only
      rw [hlh]
      refine wp_installTransLoop hsole2 (fun x hx _ => (hmem x).mpr hx)
        T.nodup nofun (fun x hx => ?_) (by omega) (K := fun _ D _ => T.Committed D) hcom
        (fun D p j hj hD => ?_) (fun j D p w _ hD hw => ⟨hw, .inr (.inl hD)⟩)
        fun c3 hK hsole3 => ⟨c3, rfl, hK, ?_⟩
      · have := T.home x hx
        omega
      · rw [Nat.zero_add, hstart, hv2 j hj]
        exact hD.install hj
      · rw [unpin_toFinset, hstart] at hsole3
        exact hsole3
    obtain ⟨c3, rfl, hcom3, hsole3⟩ := hs3
    have hhome : ∀ x ∈ T.lh, c3.disk x = T.new x := by
      intro x hx
      obtain ⟨k, hk, rfl⟩ := List.getElem_of_mem hx
      rw [hsole3.clean _ (Finset.notMem_empty _), putHome_copy v2 hk T.nodup fun y hy => by
          have := T.home y hy
          omega]
      exact hv2 k hk
    -- write_head
    refine .modify_bind (wp_writeHead (l := { l with lh := [] }) hsole3
      (fun w hw => ⟨?_, ?_⟩) fun c4 hdisk4 _ hsole4 => ⟨rfl, ⟨_, hsole4⟩, ?_⟩)
    · rcases hw with hw | ⟨_, hw⟩
      · exact .inl hw
      · rw [Finset.card_empty] at hw
        exact absurd hw (by decide)
    · exact .inr (.inl hcom3)
    · rw [hdisk4, hstart]
      exact done_clear hhome hcom3.old _
  · -- nothing was logged
    have hnil : T.lh = [] := by
      rw [← hlh]
      exact List.eq_nil_of_length_eq_zero (Nat.eq_zero_of_not_pos hn)
    refine ⟨?_, ⟨v, ?_⟩, hdisk.done hnil⟩
    · dsimp only
      rw [← hnil, ← hlh]
    · rw [hnil] at hsole
      exact hsole

-- ======== recovery

/-- The machine has been started with the disk `D`, and nobody uses the
cache yet. -/
structure Rebooted (start : Nat) (t : ProcId) (D : Nat → Block) (s : LogState) : Prop where
  start : s.log.start = start
  cache : Sole t s.log.dev ∅ D ∅ s.cache
  disk : s.cache.disk = D

/-- A recovery that finds `xs` in the header installs it and empties the
header; it stops only when the power goes. -/
theorem wp_recover {xs : List Nat} {start : Nat}
    {K : Nat → (Nat → Block) → Nat → Prop} {E : Stop → Prop}
    {Q : Unit → LogState → Prop} (h : Rebooted start t D s)
    (hxs : headBlocks (D start) = xs) (hnd : xs.Nodup) (hfits : xs.length ≤ logblocks)
    (hhome : ∀ x ∈ xs, x < start ∨ start + logblocks < x) (hK : K 0 D s.cache.power)
    (hround : ∀ B p j, (hj : j < xs.length) → K j B (p + 1) →
      K (j + 1) (update B xs[j] (D (start + j + 1))) p)
    (hE : ∀ j B, j ≤ xs.length → K j B 0 → E ⟨.powerLoss, B, 0⟩)
    (hQ : ∀ s', (∀ k, (hk : k < xs.length) → s'.cache.disk xs[k] = D (start + k + 1)) →
      (∃ B d, K xs.length B (s'.cache.power + 1)
        ∧ s'.cache.disk = update B start (putHead [] d)) →
      Q () s') :
    wp E (recoverFromLog t) Q s := by
  obtain ⟨hstart, hsole, hdisk⟩ := h
  obtain ⟨c, l⟩ := s
  dsimp only at hstart hsole hdisk hK
  have hstop : ∀ w p, Stops ∅ w p → w = .powerLoss ∧ p = 0 := by
    intro w p hw
    refine hw.resolve_right fun hfull => ?_
    rw [Finset.card_empty] at hfull
    exact absurd hfull.2 (by decide)
  -- read_head
  refine .bind (M := fun _ s => ∃ c1, s = ⟨c1, { l with lh := xs }⟩
      ∧ c1.disk = D ∧ c1.power = c.power ∧ Sole t l.dev ∅ D ∅ c1)
    (.get_bind (wp_onBio_bind (hsole.bread (by simp) (fun _ hfull => ?_)
      fun b c1 g => .get_bind (.modify_bind (wp_onBio (g.alone.brelse
        (Finset.mem_insert_self b ∅) ?_ fun c2 hdisk2 hpow2 _ h2 => ?_))))))
    fun _ s1 hs1 => ?_
  · rw [Finset.card_empty] at hfull
    exact absurd hfull (by decide)
  · rw [g.data, g.blockno]
  · refine ⟨c2, ?_, ?_, ?_, ?_⟩
    · dsimp only
      rw [g.data, hstart, hxs]
    · rw [hdisk2, g.disk, hdisk]
    · rw [hpow2, g.power]
    · rw [Finset.erase_insert (Finset.notMem_empty b)] at h2
      exact h2
  obtain ⟨c1, rfl, hdisk1, hpow1, hsole1⟩ := hs1
  -- install_trans
  refine .bind (M := fun _ s => ∃ c2, s = ⟨c2, { l with lh := xs }⟩ ∧ K xs.length c2.disk c2.power
      ∧ Sole t l.dev ∅ (putHome start 0 xs D) ∅ c2)
    (.get_bind ?_) fun _ s2 hs2 => ?_
  · dsimp only
    refine wp_installTransLoop (K := K) hsole1 nofun hnd (fun _ => rfl)
      (fun x hx => ?_) (by omega) ?_ (fun B p j hj hB => ?_)
      (fun j B p w hj hB hw => ?_) fun c2 hK2 hsole2 => ⟨c2, rfl, ?_, ?_⟩
    · grind
    · rw [hdisk1, hpow1]
      exact hK
    · grind
    · obtain ⟨rfl, rfl⟩ := hstop w p hw
      exact hE j B (by omega) hB
    · rw [Nat.zero_add] at hK2
      exact hK2
    · rw [← hstart]
      exact hsole2
  obtain ⟨c2, rfl, hK2, hsole2⟩ := hs2
  -- write_head
  refine .modify_bind (wp_writeHead (l := { l with lh := [] }) hsole2
    (fun w hw => ?_) fun c3 hdisk3 hpow3 hsole3 =>
      hQ _ (fun k hk => ?_) ⟨c2.disk, _, ?_, hstart ▸ hdisk3⟩)
  · grind
  · have hmem : xs[k] ∈ xs := List.getElem_mem hk
    have hout := hhome _ hmem
    dsimp only
    rw [hdisk3, update_of_ne (by dsimp only; omega),
      hsole2.clean _ (Finset.notMem_empty _), putHome_copy D hk hnd fun y hy =>
        by have := hhome y hy; omega]
    rfl
  · dsimp only
    rw [hpow3]
    exact hK2

/-- A recovery that finds an empty log writes the head only. -/
theorem wp_recover_nil {P : (Nat → Block) → Prop} (h : Rebooted T.start t D s)
    (hhead : headBlocks (D T.start) = []) (hD : P D)
    (hclear : ∀ d, P (update D T.start (putHead [] d))) :
    wp (fun e => s.cache.power ≤ T.lh.length ∧ P e.disk)
      (recoverFromLog t) (fun _ s' => P s'.cache.disk) s := by
  refine wp_recover h hhead List.nodup_nil (Nat.zero_le _) (by simp)
    (K := fun j B p => B = D ∧ p + j = s.cache.power) ⟨rfl, rfl⟩
    (fun B p j hj => absurd hj (Nat.not_lt_zero j))
    (fun j B hj hB => ⟨?_, hB.1.symm ▸ hD⟩) fun s' _ hs' => ?_
  · rw [List.length_nil] at hj
    omega
  · obtain ⟨B, d, hB, hdisk⟩ := hs'
    rw [hdisk, hB.1]
    exact hclear d

/-- A recovery leaves a transaction that was not committed alone. -/
theorem Before.recover (hD : T.Before D) (h : Rebooted T.start t D s) :
    wp (fun e => s.cache.power ≤ T.lh.length ∧ T.Before e.disk)
      (recoverFromLog t) (fun _ s' => T.Before s'.cache.disk) s :=
  wp_recover_nil h hD.head hD hD.clear

/-- A recovery completes a transaction that was committed. -/
theorem Committed.recover (hD : T.Committed D) (h : Rebooted T.start t D s) :
    wp (fun e => s.cache.power ≤ T.lh.length ∧ T.Committed e.disk)
      (recoverFromLog t) (fun _ s' => T.Done s'.cache.disk) s := by
  refine wp_recover h hD.head T.nodup T.fits T.home
    (K := fun j B p => T.Committed B ∧ p + j = s.cache.power) ⟨hD, rfl⟩
    (fun B p j hj hB => ⟨?_, ?_⟩) (fun j B hj hB => ⟨?_, hB.1⟩) fun s' hnew hs' => ?_
  · rw [hD.logged j hj]
    exact hB.1.install hj
  · have := hB.2
    omega
  · have := hB.2
    omega
  · obtain ⟨B, d, hB, hdisk⟩ := hs'
    rw [hdisk]
    refine done_clear (fun x hx => ?_) hB.1.old d
    obtain ⟨k, hk, rfl⟩ := List.getElem_of_mem hx
    rw [← hD.logged k hk, ← hnew k hk, hdisk, update_of_ne (ne_start (T.home _ hx))]

theorem Done.recover (hD : T.Done D) (h : Rebooted T.start t D s) :
    wp (fun e => s.cache.power ≤ T.lh.length ∧ T.Done e.disk)
      (recoverFromLog t) (fun _ s' => T.Done s'.cache.disk) s :=
  wp_recover_nil h hD.head hD (done_clear hD.new hD.old)

/-- From the commit on, the transaction is done when a recovery is. -/
theorem recover_committed (hD : T.Committed D ∨ T.Done D) (h : Rebooted T.start t D s) :
    wp (fun e => s.cache.power ≤ T.lh.length ∧ (T.Committed e.disk ∨ T.Done e.disk))
      (recoverFromLog t) (fun _ s' => T.Done s'.cache.disk) s := by
  rcases hD with hD | hD
  · exact (hD.recover h).weaken fun e he => ⟨he.1, .inl he.2⟩
  · exact (hD.recover h).weaken fun e he => ⟨he.1, .inr he.2⟩

end Txn

-- ======== any crashes

/-- Recoveries that are started with the disk `D`, and each stopped by a
crash, leave `D'`. -/
inductive Crashes (start : Nat) (D : Nat → Block) : (Nat → Block) → Prop
  | none : Crashes start D D
  | again {D' : Nat → Block} {t : ProcId} {s : LogState} {e : Stop} :
      Crashes start D D' → Txn.Rebooted start t D' s →
      recoverFromLog t s = .error e → Crashes start D e.disk

/-- A commit stops or returns, with the disk `D`, after `writes` block
writes. -/
def CommitEnds (t : ProcId) (s : LogState) (D : Nat → Block) (writes : Nat) : Prop :=
  (∃ e, commit t s = .error e ∧ e.disk = D ∧ s.cache.power - e.left = writes)
    ∨ ∃ s' n, commit t s = .ok ((), s', n) ∧ s'.cache.disk = D
      ∧ s.cache.power - s'.cache.power = writes

section crash

variable {T : Txn} {D D' : Nat → Block} {t : ProcId} {s : LogState}

theorem Crashes.before (h : Crashes T.start D D') (hD : T.Before D) : T.Before D' := by
  induction h with
  | none => exact hD
  | again _ hre hrun ih => exact ((ih.recover hre).error hrun).2

theorem Crashes.committed (h : Crashes T.start D D')
    (hD : T.Committed D ∨ T.Done D) : T.Committed D' ∨ T.Done D' := by
  induction h with
  | none => exact hD
  | again _ hre hrun ih => exact ((Txn.recover_committed ih hre).error hrun).2

/-- How a commit ends: before it, or with the header written. -/
theorem CommitEnds.phase {writes : Nat} (h : CommitEnds t s D writes) (hs : T.Ready t s) :
    T.Before D ∧ writes ≤ T.lh.length ∨ T.Committed D ∨ T.Done D := by
  rcases h with ⟨e, hrun, rfl, hw⟩ | ⟨s', n, hrun, rfl, hw⟩
  · rcases ((Txn.wp_commit hs).error hrun).2 with ⟨hb, hp⟩ | hc
    · exact .inl ⟨hb, by omega⟩
    · exact .inr hc
  · exact .inr (.inr ((Txn.wp_commit hs).ok hrun).disk)

/-- What a completed recovery leaves on the disk. -/
structure Recovered (T : Txn) (writes : Nat) (D : Nat → Block) : Prop where
  head : headBlocks (D T.start) = []
  atomic : (∀ x ∈ T.lh, D x = T.old x) ∨ ∀ x ∈ T.lh, D x = T.new x
  durable : T.lh.length < writes → ∀ x ∈ T.lh, D x = T.new x
  others : ∀ x, T.Outside x → x ∉ T.lh → D x = T.old x

/-- Whenever a commit stops, and however often the recoveries after it are
stopped: a recovery that completes leaves the blocks all old or all new,
all new if the commit got past its first `write_head` (that is, past as
many writes as there are blocks, and one more), and the header empty. One
that has the power for these writes does complete. -/
theorem log_crash_atomic {writes : Nat} {u : ProcId} {s1 : LogState}
    (hs : T.Ready t s) (hend : CommitEnds t s D writes)
    (hcrash : Crashes T.start D D') (hboot : Txn.Rebooted T.start u D' s1) :
    (∀ s2 n, recoverFromLog u s1 = .ok ((), s2, n) → Recovered T writes s2.cache.disk)
      ∧ (T.lh.length < s1.cache.power → ∃ s2 n, recoverFromLog u s1 = .ok ((), s2, n)) := by
  rcases hend.phase hs with ⟨hb, hw⟩ | hc
  · have hrec := (hcrash.before hb).recover hboot
    refine ⟨fun s2 n hrun => ?_, fun hp => ?_⟩
    · have h := hrec.ok hrun
      exact ⟨h.head, .inl fun x hx => h.old x (T.home x hx),
        fun hlt => absurd hlt (Nat.not_lt.mpr hw), fun x hx _ => h.old x hx⟩
    · obtain ⟨⟨⟩, s2, n, hrun, -⟩ := hrec.returns fun e he => Nat.not_le.mpr hp he.1
      exact ⟨s2, n, hrun⟩
  · have hrec := Txn.recover_committed (hcrash.committed hc) hboot
    refine ⟨fun s2 n hrun => ?_, fun hp => ?_⟩
    · have h := hrec.ok hrun
      exact ⟨h.head, .inr h.new, fun _ => h.new, h.old⟩
    · obtain ⟨⟨⟩, s2, n, hrun, -⟩ := hrec.returns fun e he => Nat.not_le.mpr hp he.1
      exact ⟨s2, n, hrun⟩

end crash

/-- Block 40 changes from zeros to fives. -/
def fiveTxn : Txn where
  start := 2
  lh := [40]
  old := fun _ _ => 0
  new := fun _ _ => 5
  nodup := by simp
  fits := by decide
  small := by simp
  home := by decide

/-- A system call has logged the change. -/
def logFives : BioM Unit := do
  let b ← bread 0 1 40
  storeBuf b fun _ => 5
  bpin b
  brelse 0 b

theorem logFives_ready : ∃ c n, logFives (binit (fun _ _ => 0) 2) = .ok ((), c, n) ∧ c.power = 2
      ∧ fiveTxn.Ready 0 ⟨c, ⟨2, 1, 0, true, [40]⟩⟩ := by
  have hsole : Sole 0 1 ∅ (fun _ _ => 0) ∅ (binit (fun _ _ => 0) 2) := binit_sole (by decide)
  have hwp : wp (fun _ => False) logFives
      (fun _ c => c.power = 2 ∧ fiveTxn.Ready 0 ⟨c, ⟨2, 1, 0, true, [40]⟩⟩)
      (binit (fun _ _ => 0) 2) := by
    refine .seq (hsole.bread (x := 40) (by simp) (fun _ hfull => ?_) fun b c1 g => ?_)
    · rw [Finset.card_empty] at hfull
      exact absurd hfull (by decide)
    have hb : b ∈ insert b (∅ : Finset BufId) := Finset.mem_insert_self b ∅
    refine .seq (g.alone.store hb fun h2 => ?_)
    have hself := updBuf_self c1 b fun q => { q with data := fun _ => 5 }
    have hbn : ((c1.updBuf b fun q => { q with data := fun _ => 5 }).buf b).blockno = 40 := by
      rw [hself]
      exact g.blockno
    refine .seq (h2.bpin hb hbn (Finset.notMem_empty 40) fun c3 hdisk3 hpow3 hdata3 h3 => ?_)
    rw [hself] at h3
    refine h3.brelse hb ?_ fun c4 hdisk4 hpow4 _ h4 => ⟨?_, rfl, rfl, ?_, ?_⟩
    · rw [(hdata3 b).1, (hdata3 b).2, hbn, hself, update_self]
    · rw [hpow4, hpow3]
      exact g.power.trans (binit_disk _ _).2
    · rw [Finset.erase_insert (Finset.notMem_empty b)] at h4
      refine ⟨_, h4, fun x hx => ?_⟩
      rw [List.mem_singleton.mp hx, update_self]
      rfl
    · have hzero : c4.disk = fun _ _ => 0 := by
        rw [hdisk4, hdisk3]
        exact g.disk.trans (binit_disk _ _).1
      refine ⟨?_, fun x _ => congrFun hzero x⟩
      dsimp only
      rw [hzero]
      decide
  obtain ⟨⟨⟩, c, n, hrun, hpow, hready⟩ := hwp.total
  exact ⟨c, n, hrun, hpow, hready⟩

/-- The power goes when the log and the header are written; the recovery
brings the block home. -/
theorem log_crash_atomic_fives : ∃ s D writes s1 s2 n, fiveTxn.Ready 0 s ∧ CommitEnds 0 s D writes
      ∧ Txn.Rebooted 2 0 D s1 ∧ recoverFromLog 0 s1 = .ok ((), s2, n)
      ∧ Recovered fiveTxn writes s2.cache.disk
      ∧ s2.cache.disk 40 = fun _ => 5 := by
  obtain ⟨c, -, -, hpow, hready⟩ := logFives_ready
  have hboot : ∀ D, Txn.Rebooted 2 0 D (bootLog 2 1 D 2) := fun D =>
    ⟨rfl, binit_sole (Nat.le_refl 1), (binit_disk D 2).1⟩
  have hpower : ∀ D, fiveTxn.lh.length < (bootLog 2 1 D 2).cache.power := by
    intro D
    show 1 < (binit D 2).power
    rw [(binit_disk D 2).2]
    decide
  cases hrun : commit 0 ⟨c, ⟨2, 1, 0, true, [40]⟩⟩ with
  | error e =>
    have hstop := ((Txn.wp_commit hready).error hrun).1
    have hleft : e.left = 0 := by
      refine (hstop.resolve_right fun hfull => ?_).2
      exact absurd hfull.2 (by decide)
    have hend : CommitEnds 0 ⟨c, ⟨2, 1, 0, true, [40]⟩⟩ e.disk 2 :=
      .inl ⟨e, hrun, rfl, by rw [hleft]; exact hpow⟩
    obtain ⟨hrec, htotal⟩ := log_crash_atomic hready hend .none (hboot e.disk)
    obtain ⟨s2, n, hrun2⟩ := htotal (hpower e.disk)
    have h := hrec s2 n hrun2
    exact ⟨_, _, _, _, s2, n, hready, hend, hboot _, hrun2, h, h.durable (by decide) 40 (by decide)⟩
  | ok r =>
    obtain ⟨⟨⟩, s', m⟩ := r
    have hdone := ((Txn.wp_commit hready).ok hrun).disk
    have hend : CommitEnds 0 ⟨c, ⟨2, 1, 0, true, [40]⟩⟩ s'.cache.disk
        (c.power - s'.cache.power) := .inr ⟨s', m, hrun, rfl, rfl⟩
    obtain ⟨hrec, htotal⟩ := log_crash_atomic hready hend .none (hboot s'.cache.disk)
    obtain ⟨s2, n, hrun2⟩ := htotal (hpower s'.cache.disk)
    exact ⟨_, _, _, _, s2, n, hready, hend, hboot _, hrun2,
      hrec s2 n hrun2, ((hdone.recover (hboot _)).ok hrun2).new 40 (by decide)⟩

end GemOS
