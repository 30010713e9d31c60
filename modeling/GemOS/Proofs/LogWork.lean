/-
What the programs of the log do to the disk.

The rules here are those of `Proofs.Buffers` put together: one for the
header, one for each of the two loops. A loop writes one block a round,
so what is known of the disk is a condition `K i D p` on the rounds done,
the disk and the power left; each rule asks that a round keeps it, and
that wherever it holds the machine may stop.
-/
import GemOS.Proofs.Buffers
import GemOS.Kernel.Log

namespace GemOS

open Function Prog

-- ======== the header

section header

variable {i : Nat}

theorem leWord_putBlocks_of_le {j : Nat} (xs : List Nat) (d : Block)
    (h : j ≤ i) : leWord (putBlocks i xs d) j = leWord d j := by
  induction xs generalizing i d with
  | nil => rfl
  | cons x xs ih =>
    unfold putBlocks
    rw [ih _ (by omega), leWord_setWord_of_ne _ _ (by omega)]

theorem leWord_putBlocks {k : Nat} {xs : List Nat} (d : Block)
    (hxs : ∀ x ∈ xs, x < 2 ^ 32) (hk : k < xs.length) :
    leWord (putBlocks i xs d) (i + k + 1) = xs[k] := by
  induction xs generalizing i k d with
  | nil => exact absurd hk (Nat.not_lt_zero k)
  | cons x xs ih =>
    unfold putBlocks
    cases k with
    | zero =>
      rw [leWord_putBlocks_of_le _ _ (by omega)]
      exact leWord_setWord_self _ _ (hxs x (List.mem_cons_self ..))
    | succ k =>
      have h := ih (i := i + 1) (setWord d (i + 1) x)
        (fun y hy => hxs y (List.mem_cons_of_mem x hy)) (Nat.lt_of_succ_lt_succ hk)
      rw [List.getElem_cons_succ, ← h]
      congr 1
      omega

/-- The header is read back as it was written. -/
theorem headBlocks_putHead {lh : List Nat} (d : Block)
    (hlen : lh.length < 2 ^ 31) (hlh : ∀ x ∈ lh, x < 2 ^ 32) : headBlocks (putHead lh d) = lh := by
  have hn : leWord (putHead lh d) 0 = lh.length := by
    grind [putHead, leWord_putBlocks_of_le, leWord_setWord_self]
  unfold headBlocks
  rw [hn, if_pos hlen]
  apply List.ext_getElem
  · rw [List.length_map, List.length_range]
  · intro k _ hk
    rw [List.getElem_map, List.getElem_range]
    have h := leWord_putBlocks (i := 0) (setWord d 0 lh.length) hlh hk
    rw [Nat.zero_add] at h
    exact h

end header

-- ======== the rules

variable {t : ProcId} {dev x : Nat} {P : Finset Nat} {v : Nat → Block}
  {s : LogState} {c : Bcache} {l : Log} {E : Stop → Prop}

variable {α : Type} {Q : Unit → LogState → Prop} {f : LogM Unit} {y i : Nat}
  {K : Nat → (Nat → Block) → Nat → Prop} {rest : List Nat} {recovering : Bool}

theorem wp_onBio {x : BioM α} {Q : α → LogState → Prop}
    (h : wp E x (fun a c => Q a ⟨c, s.log⟩) s.cache) :
    wp E (onBio x) Q s := .zoom h fun _ _ hq => hq

theorem wp_onBio_bind {β : Type} {x : BioM α} {f : α → LogM β} {Q : β → LogState → Prop}
    (h : wp E x (fun a c => wp E (f a) Q ⟨c, s.log⟩) s.cache) :
    wp E (onBio x >>= f) Q s := (wp_onBio h).seq

/-- How the programs of the log may stop: the power goes, or every buffer
is that of a pinned block. -/
def Stops (P : Finset Nat) (w : Halt) (p : Nat) : Prop :=
  w = .powerLoss ∧ p = 0 ∨ w = .panic "bget: no buffers" ∧ nbuf ≤ P.card

/-- One block is written, the header. -/
theorem wp_writeHead (h : Sole t l.dev P v ∅ c) (hE : ∀ w, Stops P w c.power →
      E ⟨w, c.disk, c.power⟩)
    (hQ : ∀ c', c'.disk = update c.disk l.start (putHead l.lh (v l.start)) →
      c'.power + 1 = c.power →
      Sole t l.dev P (update v l.start (putHead l.lh (v l.start))) ∅ c' → Q () ⟨c', l⟩) :
    wp E (writeHead t) Q ⟨c, l⟩ := by
  refine .get_bind (wp_onBio_bind (h.bread (by simp) (fun _ hfull => ?_) fun b c1 g => ?_))
  · rw [Finset.card_empty, Nat.add_zero] at hfull
    exact hE _ (.inr ⟨rfl, hfull⟩)
  · have hb : b ∈ insert b (∅ : Finset BufId) := Finset.mem_insert_self b ∅
    refine .get_bind (wp_onBio_bind (g.alone.store hb fun h2 => ?_))
    have hself := updBuf_self c1 b fun q => { q with data := putHead l.lh (c1.buf b).data }
    refine wp_onBio_bind (h2.bwrite hb (fun hp => ?_) fun c3 hbuf hdisk hpow h3 => ?_)
    · have hp1 : c.power = 0 := by rw [← g.power]; exact hp
      have hstop := hE _ (.inl ⟨rfl, hp1⟩)
      rw [hp1] at hstop
      show E ⟨_, c1.disk, 0⟩
      rw [g.disk]
      exact hstop
    · rw [hself] at hdisk h3
      dsimp only at hdisk h3
      rw [g.blockno, g.data] at hdisk h3
      refine wp_onBio (h3.brelse hb ?_ fun c4 hdisk4 hpow4 _ h4 => ?_)
      · rw [hbuf, hself]
        dsimp only
        rw [g.blockno, g.data, update_self]
      · rw [Finset.erase_insert (Finset.notMem_empty b)] at h4
        refine hQ c4 ?_ ?_ h4
        · rw [hdisk4, hdisk]
          show update c1.disk _ _ = _
          rw [g.disk]
        · rw [hpow4, ← g.power]
          exact hpow

-- ======== write_log

/-- What the blocks are after the rounds of `write_log` from `i` on. -/
def putLog (start : Nat) : Nat → List Nat → (Nat → Block) → Nat → Block
  | _, [], v => v
  | i, x :: xs, v =>
    putLog start (i + 1) xs (update v (start + i + 1) (v x))

section putLog

variable {start i : Nat} {xs : List Nat}

theorem putLog_of_notMem {y : Nat} (v : Nat → Block)
    (h : y ≤ start + i ∨ start + i + xs.length < y) : putLog start i xs v y = v y := by
  induction xs generalizing i v with
  | nil => rfl
  | cons x xs ih =>
    rw [List.length_cons] at h
    unfold putLog
    rw [ih _ (by omega), update_of_ne (by omega)]

/-- The copy of a block in the log. -/
theorem putLog_copy {k : Nat} (v : Nat → Block) (hk : k < xs.length)
    (hxs : ∀ x ∈ xs, x ≤ start + i ∨ start + i + xs.length < x) :
    putLog start i xs v (start + i + k + 1) = v xs[k] := by
  induction xs generalizing i k v with
  | nil => exact absurd hk (Nat.not_lt_zero k)
  | cons x xs ih =>
    rw [List.length_cons] at hxs hk
    unfold putLog
    cases k with
    | zero =>
      rw [putLog_of_notMem _ (.inl (by omega))]
      exact update_self ..
    | succ k =>
      have hmem : xs[k] ∈ xs := List.getElem_mem _
      have hout := hxs xs[k] (List.mem_cons_of_mem x hmem)
      rw [show start + i + (k + 1) + 1 = start + (i + 1) + k + 1 by omega,
        ih _ (by omega) fun y hy => ?_, List.getElem_cons_succ, update_of_ne (by omega)]
      have := hxs y (List.mem_cons_of_mem x hy)
      omega

end putLog

/-- Reading two blocks, copying the second over the first and writing
it. -/
theorem wp_writeRound (h : Sole t l.dev P v ∅ c) (hxP : x ∈ P) (hyx : y ≠ x)
    (hE : ∀ w, Stops P w c.power → E ⟨w, c.disk, c.power⟩)
    (hQ : ∀ c', c'.disk = update c.disk y (v x) → c'.power + 1 = c.power →
      Sole t l.dev P (update v y (v x)) ∅ c' → wp E f Q ⟨c', l⟩) :
    wp E (do
      let dst ← onBio (bread t l.dev y)
      let src ← onBio (bread t l.dev x)
      onBio (copyBuf dst src)
      onBio (bwrite t dst)
      onBio (brelse t src)
      onBio (brelse t dst)
      f) Q ⟨c, l⟩ := by
  refine wp_onBio_bind (h.bread (by simp) (fun _ hfull => ?_) fun dst c1 g1 => ?_)
  · rw [Finset.card_empty, Nat.add_zero] at hfull
    exact hE _ (.inr ⟨rfl, hfull⟩)
  refine wp_onBio_bind (g1.alone.bread (x := x) (fun b hb => ?_)
    (fun hx => absurd hxP hx) fun src c2 g2 => ?_)
  · rw [insert_empty_eq, Finset.mem_singleton] at hb
    rw [hb, g1.blockno]
    exact hyx
  have hne : dst ≠ src := fun heq => g2.new (heq ▸ Finset.mem_insert_self dst ∅)
  have hdst : dst ∈ insert src (insert dst (∅ : Finset BufId)) :=
    Finset.mem_insert_of_mem (Finset.mem_insert_self dst ∅)
  have hbn : (c2.buf dst).blockno = y := by
    rw [g2.others dst hne, g1.blockno]
  refine wp_onBio_bind (.get_bind (g2.alone.store hdst fun h3 => ?_))
  rw [g2.data] at h3 ⊢
  generalize hc3 : c2.updBuf dst (fun q => { q with data := v x }) = c3 at h3 ⊢
  have hself : (c3.buf dst).blockno = y ∧ (c3.buf dst).data = v x := by
    rw [← hc3, updBuf_self]
    exact ⟨hbn, rfl⟩
  have hsrc : (c3.buf src).blockno = x ∧ (c3.buf src).data = v x := by
    rw [← hc3, updBuf_of_ne _ _ hne.symm]
    exact ⟨g2.blockno, g2.data⟩
  have hsame : c3.disk = c.disk ∧ c3.power = c.power := by
    rw [← hc3]
    exact ⟨g2.disk.trans g1.disk, g2.power.trans g1.power⟩
  refine wp_onBio_bind (h3.bwrite hdst (fun hp => ?_) fun c4 hbuf hdisk hpow h4 => ?_)
  · rw [hsame.2] at hp
    have hstop := hE _ (.inl ⟨rfl, hp⟩)
    rw [hp] at hstop
    rw [hsame.1]
    exact hstop
  rw [hself.1, hself.2] at hdisk h4
  refine wp_onBio_bind (h4.brelse (Finset.mem_insert_self src _) ?_
    fun c5 hdisk5 hpow5 hdata5 h5 => ?_)
  · rw [hbuf, hsrc.1, hsrc.2, update_of_ne hyx.symm]
  rw [Finset.erase_insert g2.new] at h5
  refine wp_onBio_bind (h5.brelse (Finset.mem_insert_self dst ∅) ?_ fun c6 hdisk6 hpow6 _ h6 => ?_)
  · rw [(hdata5 dst).1, (hdata5 dst).2, hbuf, hself.1, hself.2, update_self]
  rw [Finset.erase_insert (Finset.notMem_empty dst)] at h6
  refine hQ c6 ?_ ?_ h6
  · rw [hdisk6, hdisk5, hdisk, hsame.1]
  · rw [hpow6, hpow5, ← hsame.2]
    exact hpow

/-- `write_log`, by induction on the blocks left. -/
theorem wp_writeLogLoop (h : Sole t l.dev P v ∅ c) (hrest : ∀ x ∈ rest, x ∈ P)
    (hlog : ∀ y, l.start < y → y ≤ l.start + logblocks → y ∉ P)
    (hlen : i + rest.length ≤ logblocks) (hK : K i c.disk c.power)
    (hround : ∀ j D p y d, K j D (p + 1) → l.start < y →
      y ≤ l.start + logblocks → K (j + 1) (update D y d) p)
    (hE : ∀ j D p w, j < i + rest.length → K j D p → Stops P w p → E ⟨w, D, p⟩)
    (hQ : ∀ c', K (i + rest.length) c'.disk c'.power →
      Sole t l.dev P (putLog l.start i rest v) ∅ c' → Q () ⟨c', l⟩) :
    wp E (writeLogLoop t i rest) Q ⟨c, l⟩ := by
  induction rest generalizing i v c with
  | nil => exact .pure (hQ c hK h)
  | cons x rest ih =>
    rw [List.length_cons] at hlen hE hQ
    have hxP := hrest x (List.mem_cons_self ..)
    have hyP := hlog (l.start + i + 1) (by omega) (by omega)
    refine .get_bind (wp_writeRound (y := l.start + i + 1) h hxP
      (fun heq => hyP (heq ▸ hxP)) (fun w hw => hE i _ _ w (by omega) hK hw)
      fun c' hdisk hpow h' => ?_)
    refine ih h' (fun y hy => hrest y (List.mem_cons_of_mem x hy))
      (by omega) ?_ (fun j D p w hj => hE j D p w (by omega)) fun c'' hK'' => hQ c'' ?_
    · grind
    · rw [show i + (rest.length + 1) = i + 1 + rest.length by omega]
      exact hK''

-- ======== install_trans

/-- What the blocks are after the rounds of `install_trans` from `i` on. -/
def putHome (start : Nat) : Nat → List Nat → (Nat → Block) → Nat → Block
  | _, [], v => v
  | i, x :: xs, v =>
    putHome start (i + 1) xs (update v x (v (start + i + 1)))

section putHome

variable {start i : Nat} {xs : List Nat}

theorem putHome_of_notMem {y : Nat} (v : Nat → Block) (h : y ∉ xs) :
    putHome start i xs v y = v y := by
  induction xs generalizing i v with
  | nil => rfl
  | cons x xs ih =>
    have hne := List.ne_of_not_mem_cons h
    unfold putHome
    rw [ih _ (List.not_mem_of_not_mem_cons h), update_of_ne hne]

/-- The block at home is the copy in the log. -/
theorem putHome_copy {k : Nat} (v : Nat → Block) (hk : k < xs.length) (hnd : xs.Nodup)
    (hxs : ∀ x ∈ xs, x ≤ start + i ∨ start + i + xs.length < x) :
    putHome start i xs v xs[k] = v (start + i + k + 1) := by
  induction xs generalizing i k v with
  | nil => exact absurd hk (Nat.not_lt_zero k)
  | cons x xs ih =>
    obtain ⟨hx, hnd⟩ := List.nodup_cons.mp hnd
    have hout := hxs x (List.mem_cons_self ..)
    rw [List.length_cons] at hxs hk hout
    unfold putHome
    cases k with
    | zero =>
      rw [List.getElem_cons_zero, putHome_of_notMem _ hx]
      exact update_self ..
    | succ k => grind [update_apply, List.mem_cons_of_mem]

end putHome

/-- The blocks that stay pinned when `xs` have been installed. -/
def unpin (recovering : Bool) (P : Finset Nat) (xs : List Nat) : Finset Nat :=
  if recovering then P else xs.foldl (fun P x => P.erase x) P

/-- Reading two blocks, copying the first over the second and writing it;
the second is let go unless this is a recovery. -/
theorem wp_installRound (h : Sole t l.dev P v ∅ c) (hyx : y ≠ x)
    (hpin : recovering = false → x ∈ P) (hfits : x ∉ P → P.card + 1 < nbuf)
    (hE : ∀ w, Stops P w c.power → E ⟨w, c.disk, c.power⟩)
    (hQ : ∀ c', c'.disk = update c.disk x (v y) → c'.power + 1 = c.power →
      Sole t l.dev (unpin recovering P [x]) (update v x (v y)) ∅ c' → wp E f Q ⟨c', l⟩) :
    wp E (do
      let lbuf ← onBio (bread t l.dev y)
      let dbuf ← onBio (bread t l.dev x)
      onBio (copyBuf dbuf lbuf)
      onBio (bwrite t dbuf)
      if recovering then pure () else onBio (bunpin dbuf)
      onBio (brelse t lbuf)
      onBio (brelse t dbuf)
      f) Q ⟨c, l⟩ := by
  refine wp_onBio_bind (h.bread (by simp) (fun _ hfull => ?_) fun lbuf c1 g1 => ?_)
  · rw [Finset.card_empty, Nat.add_zero] at hfull
    exact hE _ (.inr ⟨rfl, hfull⟩)
  refine wp_onBio_bind (g1.alone.bread (x := x) (fun b hb => ?_)
    (fun hx hfull => ?_) fun dbuf c2 g2 => ?_)
  · rw [insert_empty_eq, Finset.mem_singleton] at hb
    rw [hb, g1.blockno]
    exact hyx
  · grind [Finset.card_singleton]
  have hne : lbuf ≠ dbuf := fun heq => g2.new (heq ▸ Finset.mem_insert_self lbuf ∅)
  have hdbuf : dbuf ∈ insert dbuf (insert lbuf (∅ : Finset BufId)) := Finset.mem_insert_self dbuf _
  have hlbuf : (c2.buf lbuf).blockno = y ∧ (c2.buf lbuf).data = v y := by
    rw [g2.others lbuf hne]
    exact ⟨g1.blockno, g1.data⟩
  refine wp_onBio_bind (.get_bind (g2.alone.store hdbuf fun h3 => ?_))
  rw [hlbuf.2] at h3 ⊢
  generalize hc3 : c2.updBuf dbuf (fun q => { q with data := v y }) = c3 at h3 ⊢
  have hself : (c3.buf dbuf).blockno = x ∧ (c3.buf dbuf).data = v y := by
    rw [← hc3, updBuf_self]
    exact ⟨g2.blockno, rfl⟩
  have hother : (c3.buf lbuf).blockno = y ∧ (c3.buf lbuf).data = v y := by
    rw [← hc3, updBuf_of_ne _ _ hne]
    exact hlbuf
  have hsame : c3.disk = c.disk ∧ c3.power = c.power := by
    rw [← hc3]
    exact ⟨g2.disk.trans g1.disk, g2.power.trans g1.power⟩
  refine wp_onBio_bind (h3.bwrite hdbuf (fun hp => ?_) fun c4 hbuf hdisk hpow h4 => ?_)
  · rw [hsame.2] at hp
    have hstop := hE _ (.inl ⟨rfl, hp⟩)
    rw [hp] at hstop
    rw [hsame.1]
    exact hstop
  rw [hself.1, hself.2] at hdisk h4
  -- unpinned or not, the contents are the same
  have hrest : ∀ c5 : Bcache, c5.disk = c4.disk → c5.power = c4.power →
      (∀ a, (c5.buf a).data = (c4.buf a).data ∧ (c5.buf a).blockno = (c4.buf a).blockno) →
      Sole t l.dev (unpin recovering P [x]) (update v x (v y)) (insert dbuf (insert lbuf ∅)) c5 →
      wp E (do
        onBio (brelse t lbuf)
        onBio (brelse t dbuf)
        f) Q ⟨c5, l⟩ := by
    intro c5 hdisk5 hpow5 hdata5 h5
    have hl5 : (c5.buf lbuf).blockno = y ∧ (c5.buf lbuf).data = v y := by
      rw [(hdata5 lbuf).1, (hdata5 lbuf).2, hbuf]
      exact hother
    have hd5 : (c5.buf dbuf).blockno = x ∧ (c5.buf dbuf).data = v y := by
      rw [(hdata5 dbuf).1, (hdata5 dbuf).2, hbuf]
      exact hself
    refine wp_onBio_bind (h5.brelse (Finset.mem_insert_of_mem
      (Finset.mem_insert_self lbuf ∅)) ?_ fun c6 hdisk6 hpow6 hdata6 h6 => ?_)
    · rw [hl5.1, hl5.2, update_of_ne hyx]
    rw [Finset.erase_insert_of_ne hne.symm, Finset.erase_insert (Finset.notMem_empty lbuf)] at h6
    refine wp_onBio_bind (h6.brelse (Finset.mem_insert_self dbuf ∅) ?_
      fun c7 hdisk7 hpow7 _ h7 => ?_)
    · rw [(hdata6 dbuf).1, (hdata6 dbuf).2, hd5.1, hd5.2, update_self]
    rw [Finset.erase_insert (Finset.notMem_empty dbuf)] at h7
    refine hQ c7 ?_ ?_ h7
    · rw [hdisk7, hdisk6, hdisk5, hdisk, hsame.1]
    · rw [hpow7, hpow6, hpow5, ← hsame.2]
      exact hpow
  dsimp only
  refine .ite (fun hr => ?_) fun hr => wp_onBio_bind ?_
  · grind [unpin]
  · have hxP := hpin (Bool.not_eq_true _ ▸ hr)
    refine h4.bunpin hdbuf (by rw [hbuf]; exact hself.1) hxP ?_
      fun c5 hdisk5 hpow5 hdata5 h5 => hrest c5 hdisk5 hpow5 hdata5 ?_
    · rw [hdisk, update_self, update_self]
    · unfold unpin
      rw [if_neg hr]
      exact h5

theorem unpin_cons (recovering : Bool) (P : Finset Nat) (x : Nat)
    (xs : List Nat) : unpin recovering P (x :: xs)
      = unpin recovering (unpin recovering P [x]) xs := by
  unfold unpin
  cases recovering <;> rfl

theorem unpin_subset (recovering : Bool) (P : Finset Nat) (xs : List Nat) :
    unpin recovering P xs ⊆ P := by
  induction xs generalizing P with
  | nil => cases recovering <;> exact Finset.Subset.refl P
  | cons x xs ih =>
    rw [unpin_cons]
    refine (ih _).trans ?_
    cases recovering
    · exact Finset.erase_subset x P
    · exact Finset.Subset.refl P

/-- In a commit, no block stays pinned. -/
theorem unpin_toFinset (xs : List Nat) : unpin false xs.toFinset xs = ∅ := by
  have hfold : ∀ (ys : List Nat) (P : Finset Nat),
      ys.foldl (fun P x => P.erase x) P = P \ ys.toFinset := by
    intro ys
    induction ys with
    | nil => intro P; simp
    | cons y ys ih =>
      intro P
      rw [List.foldl_cons, ih, List.toFinset_cons, Finset.sdiff_insert, Finset.erase_sdiff_comm]
  unfold unpin
  rw [if_neg (by decide), hfold, Finset.sdiff_self]

/-- `install_trans`, by induction on the blocks left. -/
theorem wp_installTransLoop (h : Sole t l.dev P v ∅ c)
    (hpin : ∀ x ∈ rest, recovering = false → x ∈ P) (hnd : rest.Nodup)
    (hfits : recovering = true → P = ∅) (hrest : ∀ x ∈ rest, x ≤ l.start ∨ l.start + logblocks < x)
    (hlen : i + rest.length ≤ logblocks) (hK : K i c.disk c.power)
    (hround : ∀ D p j, (hj : j < rest.length) → K (i + j) D (p + 1) →
      K (i + j + 1) (update D rest[j] (v (l.start + (i + j) + 1))) p)
    (hE : ∀ j D p w, j < i + rest.length → K j D p → Stops P w p → E ⟨w, D, p⟩)
    (hQ : ∀ c', K (i + rest.length) c'.disk c'.power →
      Sole t l.dev (unpin recovering P rest) (putHome l.start i rest v) ∅ c' →
      Q () ⟨c', l⟩) : wp E (installTransLoop t recovering i rest) Q ⟨c, l⟩ := by
  induction rest generalizing i v c P with
  | nil =>
    refine .pure (hQ c hK ?_)
    cases recovering <;> exact h
  | cons x rest ih =>
    obtain ⟨hx, hnd⟩ := List.nodup_cons.mp hnd
    rw [List.length_cons] at hlen hE hQ
    have hout := hrest x (List.mem_cons_self ..)
    refine .get_bind (wp_installRound (y := l.start + i + 1) h (by omega)
      (hpin x (List.mem_cons_self ..)) (fun hxP => ?_)
      (fun w hw => hE i _ _ w (by omega) hK hw) fun c' hdisk hpow h' => ?_)
    · cases recovering with
      | true =>
        rw [hfits rfl]
        decide
      | false => exact absurd (hpin x (List.mem_cons_self ..) rfl) hxP
    refine ih h' (fun y hy hr => ?_) hnd (fun hr => ?_)
      (fun y hy => hrest y (List.mem_cons_of_mem x hy)) (by omega) ?_ (fun D p j hj hD => ?_)
      (fun j D p w hj hD hw => hE j D p w (by omega) hD ?_) fun c'' hK'' h'' => hQ c'' ?_ ?_
    · grind [unpin, List.mem_cons_of_mem]
    · grind [unpin]
    · rw [hdisk]
      rw [← hpow] at hK
      exact hround _ _ 0 (Nat.zero_lt_succ _) hK
    · have hne : l.start + (i + 1 + j) + 1 ≠ x := by omega
      rw [update_of_ne hne]
      rw [show i + 1 + j = i + (j + 1) by omega] at hD ⊢
      exact hround D p (j + 1) (Nat.succ_lt_succ hj) hD
    · -- fewer blocks are pinned now
      rcases hw with hw | ⟨hw, hcard⟩
      · exact .inl hw
      · have hsub := Finset.card_le_card (unpin_subset recovering P [x])
        exact .inr ⟨hw, by omega⟩
    · rw [show i + (rest.length + 1) = i + 1 + rest.length by omega]
      exact hK''
    · rw [unpin_cons]
      exact h''

end GemOS
