/-
The buffers as one process uses them, while nobody else does.

`Sole t dev P v H c` is all that the code above the cache needs to know
about it: which buffers `t` holds (`H`), which blocks are pinned (`P`),
and what a reader finds in each block (`v`). Each function of the cache
has one rule here, and proofs about its callers use nothing else.

The rules say how a run may stop as well. `bread` runs out of buffers
only if there are no more than what is pinned or held, and `bwrite` stops
only when the power goes; in both cases the disk is as it was.
-/
import GemOS.Proofs.BufCache

namespace GemOS

open Function Prog

/-- Is the buffer that of a pinned block? -/
def Buf.pinned (q : Buf) (dev : Nat) (P : Finset Nat) : Int :=
  if q.dev = dev ∧ q.blockno ∈ P then 1 else 0

/-- Process `t` is alone with the cache: it holds `H`, the blocks `P` are
pinned, and whoever reads block `x` finds `v x`. -/
structure Sole (t : ProcId) (dev : Nat) (P : Finset Nat) (v : Nat → Block)
    (H : Finset BufId) (c : Bcache) : Prop where
  real : 1 ≤ dev
  listed : c.Listed
  unique : c.Unique
  lock : ∀ b, (c.buf b).lock = if b ∈ H then some t else none
  refs : ∀ b, (c.buf b).refcnt = (c.buf b).pinned dev P + if b ∈ H then 1 else 0
  held : ∀ b ∈ H, (c.buf b).dev = dev ∧ (c.buf b).valid = true
  cached : ∀ x ∈ P, ∃ b, (c.buf b).dev = dev ∧ (c.buf b).blockno = x ∧ (c.buf b).valid = true
  data : ∀ b, b ∉ H → (c.buf b).dev = dev → (c.buf b).valid = true →
    (c.buf b).data = v (c.buf b).blockno
  clean : ∀ x, x ∉ P → c.disk x = v x

variable {t : ProcId} {dev x : Nat} {P : Finset Nat} {v : Nat → Block}
  {H : Finset BufId} {c : Bcache} {b : BufId} {E : Stop → Prop}

theorem binit_sole {disk : Nat → Block} {power : Nat} (hdev : 1 ≤ dev) :
    Sole t dev ∅ disk ∅ (binit disk power) := by
  have hbuf := binit_buf disk power
  have hdev0 : ∀ b, ((binit disk power).buf b).dev = 0 := by
    intro b
    rw [hbuf b]
    rfl
  refine ⟨hdev, binit_listed disk power, fun a b ha => ?_, fun b => ?_,
    fun b => ?_, by simp, by simp, fun b _ hb => ?_, fun x _ => ?_⟩
  · rw [hdev0 a] at ha
    exact absurd ha (by decide)
  · rw [hbuf b]
    rfl
  · unfold Buf.pinned
    rw [if_neg (by simp), hbuf b]
    rfl
  · rw [hdev0 b] at hb
    omega
  · rw [(binit_disk disk power).1]

-- ======== counting

variable (h : Sole t dev P v H c)

include h

/-- A buffer in use is that of a pinned block or held. -/
theorem Sole.used (hb : (c.buf b).refcnt ≠ 0) :
    b ∈ H ∨ (c.buf b).dev = dev ∧ (c.buf b).blockno ∈ P := by
  by_cases hH : b ∈ H
  · exact .inl hH
  · grind [h.refs, Buf.pinned]

/-- If all buffers are in use, there are not more of them than what is
pinned or held. -/
theorem Sole.full (hall : ∀ b, (c.buf b).refcnt ≠ 0) : nbuf ≤ P.card + H.card := by
  -- those of pinned blocks, of which there is one for each block
  let S : Finset BufId := Finset.univ.filter fun b => (c.buf b).dev = dev ∧ (c.buf b).blockno ∈ P
  have hS : S.card ≤ P.card := by
    refine Finset.card_le_card_of_injOn (fun b => (c.buf b).blockno) ?_ ?_
    · intro b hb
      exact (Finset.mem_filter.mp hb).2.2
    · intro a ha b hb hab
      have hda := (Finset.mem_filter.mp ha).2.1
      have hdb := (Finset.mem_filter.mp hb).2.1
      exact h.unique a b (hda ▸ h.real) (hda.trans hdb.symm) hab
  have hcover : (Finset.univ : Finset BufId) ⊆ S ∪ H := by
    grind [h.used, Finset.mem_union_right, Finset.mem_union_left]
  have hcard := Finset.card_le_card hcover
  rw [Finset.card_univ, Fintype.card_fin] at hcard
  have hunion := Finset.card_union_le S H
  omega

-- ======== bread

omit h in
theorem updBuf_updBuf (c : Bcache) (b : BufId) (f g : Buf → Buf) :
    (c.updBuf b f).updBuf b g = c.updBuf b fun q => g (f q) := by
  unfold Bcache.updBuf
  simp only [update_self, update_idem]

variable {f : Buf → Buf} {Q : Unit → Bcache → Prop}

/-- A buffer becomes the one of block `x`, held by `t`, where no other
buffer is. -/
theorem Sole.take (hother : ∀ a, a ≠ b → (c.buf a).dev = dev → (c.buf a).blockno ≠ x)
    (hold : (c.buf b).dev = dev → (c.buf b).blockno ∈ P → (c.buf b).blockno = x)
    (hdev : (f (c.buf b)).dev = dev) (hno : (f (c.buf b)).blockno = x)
    (hlock : (f (c.buf b)).lock = some t) (hvalid : (f (c.buf b)).valid = true)
    (hrefs : (f (c.buf b)).refcnt = (f (c.buf b)).pinned dev P + 1) :
    Sole t dev P v (insert b H) (c.updBuf b f) := by
  have hself := updBuf_self c b f
  have hne : ∀ a, a ≠ b → (c.updBuf b f).buf a = c.buf a := fun a ha => updBuf_of_ne c f ha
  have hin : ∀ a, a ≠ b → (a ∈ insert b H ↔ a ∈ H) := fun a ha =>
    ⟨fun hm => (Finset.mem_insert.mp hm).resolve_left ha, Finset.mem_insert_of_mem⟩
  refine ⟨h.real, h.listed.updBuf b f, ?_, fun a => ?_, fun a => ?_,
    fun a ha => ?_, fun y hy => ?_, fun a ha => ?_, h.clean⟩
  · intro a d hd heq hbn
    by_cases ha : a = b
    · grind
    · rw [hne a ha] at hd heq hbn
      by_cases hdb : d = b
      · grind
      · rw [hne d hdb] at heq hbn
        exact h.unique a d hd heq hbn
  · grind [Finset.mem_insert_self, h.lock]
  · grind [Finset.mem_insert_self, h.refs]
  · grind [h.held]
  · grind [h.cached]
  · grind [Finset.mem_insert_self, h.data, Finset.mem_insert_of_mem]

/-- What `bread` gives: one more buffer, with the contents of the block. -/
structure Got (t : ProcId) (dev : Nat) (P : Finset Nat) (v : Nat → Block)
    (H : Finset BufId) (c : Bcache) (x : Nat) (b : BufId) (c' : Bcache) :
    Prop where
  alone : Sole t dev P v (insert b H) c'
  new : b ∉ H
  blockno : (c'.buf b).blockno = x
  data : (c'.buf b).data = v x
  others : ∀ a, a ≠ b → c'.buf a = c.buf a
  disk : c'.disk = c.disk
  power : c'.power = c.power

theorem Sole.bread {Q : BufId → Bcache → Prop} (hx : ∀ b ∈ H, (c.buf b).blockno ≠ x)
    (hfull : x ∉ P → nbuf ≤ P.card + H.card → E ⟨.panic "bget: no buffers", c.disk, c.power⟩)
    (hQ : ∀ b c', Got t dev P v H c x b c' → Q b c') : wp E (bread t dev x) Q c := by
  refine .bind (M := fun b c' => b ∉ H ∧ ∃ f : Buf → Buf, c' = c.updBuf b f
      ∧ (∀ a, a ≠ b → (c.buf a).dev = dev → (c.buf a).blockno ≠ x)
      ∧ ((c.buf b).dev = dev → (c.buf b).blockno ∈ P → (c.buf b).blockno = x)
      ∧ (f (c.buf b)).dev = dev ∧ (f (c.buf b)).blockno = x
      ∧ (f (c.buf b)).lock = none
      ∧ (f (c.buf b)).refcnt = (f (c.buf b)).pinned dev P + 1
      ∧ ((f (c.buf b)).valid = true → (f (c.buf b)).data = v x)
      ∧ ((f (c.buf b)).valid = false → x ∉ P)) ?_ ?_
  · refine wp_bget h.listed (fun b hb => ?_) (fun hno b hb => ?_)
      fun hno hall => hfull (fun hxP => ?_) (h.full hall)
    · -- the block is cached
      obtain ⟨hdev, hbn⟩ := of_decide_eq_true hb
      have hH : b ∉ H := fun hm => hx b hm hbn
      refine ⟨hH, _, rfl, fun a ha had han => ha ?_, fun _ _ => hbn, hdev,
        hbn, ?_, ?_, fun hv => ?_, fun hv hxP => ?_⟩
      · exact h.unique a b (had ▸ h.real) (had.trans hdev.symm) (han.trans hbn.symm)
      · show (c.buf b).lock = none
        rw [h.lock b, if_neg hH]
      · show (c.buf b).refcnt + 1 = (c.buf b).pinned dev P + 1
        rw [h.refs b, if_neg hH, Int.add_zero]
      · rw [← hbn]
        exact h.data b hH hdev hv
      · obtain ⟨a, had, han, hav⟩ := h.cached x hxP
        have hab := h.unique a b (had ▸ h.real) (had.trans hdev.symm) (han.trans hbn.symm)
        rw [hab] at hav
        exact absurd (hv.symm.trans hav) (by decide)
    · -- an unused buffer is taken over
      have hH : b ∉ H := by grind [h.refs, Buf.pinned]
      have hP : ¬ ((c.buf b).dev = dev ∧ (c.buf b).blockno ∈ P) := by
        grind [h.refs, Buf.pinned]
      have hxP : x ∉ P := by
        intro hxP
        obtain ⟨a, had, han, -⟩ := h.cached x hxP
        exact of_decide_eq_false (hno a) ⟨had, han⟩
      refine ⟨hH, _, rfl, fun a _ had han => of_decide_eq_false (hno a) ⟨had, han⟩,
        fun hd hp => absurd ⟨hd, hp⟩ hP, rfl, rfl, ?_, ?_, nofun,
        fun _ => hxP⟩
      · show (c.buf b).lock = none
        rw [h.lock b, if_neg hH]
      · unfold Buf.pinned
        rw [if_neg fun hp => hxP hp.2]
        rfl
    · obtain ⟨a, had, han, -⟩ := h.cached x hxP
      exact of_decide_eq_false (hno a) ⟨had, han⟩
  · -- locking and reading
    intro b c1 hc1
    obtain ⟨hH, f, rfl, hother, hold, hdev, hbn, hlock, hrefs, hdata, hmiss⟩ := hc1
    have hself := updBuf_self c b f
    refine .bind (M := fun _ c2 => c2 = c.updBuf b fun q =>
      { f q with lock := some t }) (.get_bind (.ite (fun hl => ?_) fun _ =>
        .modify (updBuf_updBuf ..))) fun _ c2 hc2 => ?_
    · rw [hself, hlock] at hl
      cases hl
    · rw [hc2]
      have hself2 := updBuf_self c b fun q => { f q with lock := some t }
      refine .bind (M := fun _ c3 => c3 = c.updBuf b fun q =>
          { f q with lock := some t, valid := true, data := v x })
        (.get_bind (.ite (fun hv => .pure ?_) fun hv => .modify ?_))
        fun _ c3 hc3 => .pure (hQ b c3 ?_)
      · grind [Bcache.updBuf]
      · rw [hself2] at hv
        have hxP := hmiss (Bool.not_eq_true _ ▸ hv)
        rw [updBuf_updBuf]
        unfold Bcache.updBuf
        congr 2
        show ({ f (c.buf b) with
            lock := some t, valid := true,
            data := c.disk (f (c.buf b)).blockno } : Buf) = _
        rw [hbn, h.clean x hxP]
      · have hself3 := updBuf_self c b fun q =>
          { f q with lock := some t, valid := true, data := v x }
        rw [hc3]
        refine ⟨h.take hother hold hdev hbn rfl rfl hrefs, hH, ?_, ?_,
          fun a ha => updBuf_of_ne c _ ha, rfl, rfl⟩
        · rw [hself3]
          exact hbn
        · rw [hself3]

-- ======== held buffers

/-- Work on a held buffer that leaves its block, lock and count alone. -/
theorem Sole.work (hb : b ∈ H) (hf : ∀ q : Buf, (f q).dev = q.dev ∧ (f q).blockno = q.blockno
      ∧ (f q).lock = q.lock ∧ (f q).refcnt = q.refcnt
      ∧ (f q).valid = q.valid) : Sole t dev P v H (c.updBuf b f) := by
  obtain ⟨hdev, hbn, hlock, hrefs, hvalid⟩ := hf (c.buf b)
  have hself := updBuf_self c b f
  have hsame : ∀ a, ((c.updBuf b f).buf a).dev = (c.buf a).dev
      ∧ ((c.updBuf b f).buf a).blockno = (c.buf a).blockno
      ∧ ((c.updBuf b f).buf a).lock = (c.buf a).lock
      ∧ ((c.updBuf b f).buf a).refcnt = (c.buf a).refcnt
      ∧ ((c.updBuf b f).buf a).valid = (c.buf a).valid := by
    grind [updBuf_of_ne]
  refine ⟨h.real, h.listed.updBuf b f,
    h.unique.work hself (fun a ha => updBuf_of_ne c f ha) hdev hbn,
    fun a => ?_, fun a => ?_, fun a ha => ?_, fun y hy => ?_, fun a ha => ?_, h.clean⟩
  · rw [(hsame a).2.2.1]
    exact h.lock a
  · grind [Buf.pinned, h.refs]
  · rw [(hsame a).1, (hsame a).2.2.2.2]
    exact h.held a ha
  · grind [h.cached]
  · grind [updBuf_of_ne, h.data]

/-- What `t` has not written yet is seen by nobody. -/
theorem Sole.store {d : Block} (hb : b ∈ H)
    (hQ : Sole t dev P v H (c.updBuf b fun q => { q with data := d }) →
      Q () (c.updBuf b fun q => { q with data := d })) :
    wp E (storeBuf b d) Q c :=
  .modify (hQ (h.work hb fun _ => ⟨rfl, rfl, rfl, rfl, rfl⟩))

/-- A write makes the contents of the buffer those of the block. -/
theorem Sole.bwrite (hb : b ∈ H) (hpower : c.power = 0 → E ⟨.powerLoss, c.disk, 0⟩)
    (hQ : ∀ c', c'.buf = c.buf → c'.disk = update c.disk (c.buf b).blockno (c.buf b).data →
      c'.power + 1 = c.power → Sole t dev P (update v (c.buf b).blockno (c.buf b).data) H c'
      → Q () c') : wp E (bwrite t b) Q c := by
  have hlock : (c.buf b).lock = some t := by rw [h.lock b, if_pos hb]
  refine .get_bind (.ite (fun hl => absurd hlock hl) fun _ =>
    .ite (fun hp => wp_halt ?_) fun hp => .modify (hQ _ rfl rfl ?_ ?_))
  · rw [hp]
    exact hpower hp
  · show c.power - 1 + 1 = c.power
    omega
  · refine ⟨h.real, h.listed, h.unique, h.lock, h.refs, h.held, h.cached,
      fun a ha hd hv => ?_, fun y hy => ?_⟩
    · -- no other buffer is that of the block written
      have hab : (c.buf a).blockno ≠ (c.buf b).blockno := by
        intro heq
        have hdb := (h.held b hb).1
        have hab := h.unique a b (hd ▸ h.real) (hd.trans hdb.symm) heq
        exact ha (hab ▸ hb)
      rw [update_of_ne hab]
      exact h.data a ha hd hv
    · grind [update_apply, h.clean]

/-- A block is pinned, and its contents are from now on those of the
buffer. -/
theorem Sole.bpin (hb : b ∈ H) (hx : (c.buf b).blockno = x) (hP : x ∉ P)
    (hQ : ∀ c', c'.disk = c.disk → c'.power = c.power → (∀ a, (c'.buf a).data = (c.buf a).data
        ∧ (c'.buf a).blockno = (c.buf a).blockno) →
      Sole t dev (insert x P) (update v x (c.buf b).data) H c' →
      Q () c') : wp E (bpin b) Q c := by
  have hself := updBuf_self c b fun q => { q with refcnt := q.refcnt + 1 }
  have hne : ∀ a, a ≠ b → (c.updBuf b fun q => { q with refcnt := q.refcnt + 1 }).buf a = c.buf a :=
    fun a ha => updBuf_of_ne c _ ha
  obtain ⟨hdb, hvb⟩ := h.held b hb
  -- the block of another buffer is another block
  have hother : ∀ a, a ≠ b → (c.buf a).dev = dev → (c.buf a).blockno ≠ x := by
    intro a ha hd heq
    exact ha (h.unique a b (hd ▸ h.real) (hd.trans hdb.symm) (heq.trans hx.symm))
  refine .modify (hQ _ rfl rfl (fun a => ?_) ⟨h.real, h.listed.updBuf b _,
    h.unique.work hself hne rfl rfl, fun a => ?_, fun a => ?_,
    fun a ha => ?_, fun y hy => ?_, fun a ha hd hv => ?_, fun y hy => ?_⟩)
  · grind
  · grind [h.lock]
  · by_cases ha : a = b
    · grind [h.refs, Buf.pinned, Finset.mem_insert_self]
    · grind [h.refs, Buf.pinned, Finset.mem_insert_of_mem]
  · grind [h.held]
  · grind [h.cached]
  · grind [update_apply, h.data]
  · have hyx : y ≠ x := fun heq => hy (heq ▸ Finset.mem_insert_self x P)
    rw [update_of_ne hyx]
    exact h.clean y fun hm => hy (Finset.mem_insert_of_mem hm)

/-- A pinned block that has been written is let go. -/
theorem Sole.bunpin (hb : b ∈ H) (hx : (c.buf b).blockno = x) (hP : x ∈ P) (hclean : c.disk x = v x)
    (hQ : ∀ c', c'.disk = c.disk → c'.power = c.power → (∀ a, (c'.buf a).data = (c.buf a).data
        ∧ (c'.buf a).blockno = (c.buf a).blockno) →
      Sole t dev (P.erase x) v H c' → Q () c') : wp E (bunpin b) Q c := by
  have hself := updBuf_self c b fun q => { q with refcnt := q.refcnt - 1 }
  have hne : ∀ a, a ≠ b → (c.updBuf b fun q => { q with refcnt := q.refcnt - 1 }).buf a = c.buf a :=
    fun a ha => updBuf_of_ne c _ ha
  have hdb := (h.held b hb).1
  refine .modify (hQ _ rfl rfl (fun a => ?_) ⟨h.real, h.listed.updBuf b _,
    h.unique.work hself hne rfl rfl, fun a => ?_, fun a => ?_,
    fun a ha => ?_, fun y hy => ?_, fun a ha => ?_, fun y hy => ?_⟩)
  · grind
  · grind [h.lock]
  · by_cases ha : a = b
    · grind [h.refs, Buf.pinned]
    · rw [hne a ha, h.refs a]
      congr 1
      unfold Buf.pinned
      -- the block of another buffer is another block
      have hiff : (c.buf a).dev = dev ∧ (c.buf a).blockno ∈ P.erase x
          ↔ (c.buf a).dev = dev ∧ (c.buf a).blockno ∈ P := by
        constructor
        · intro hp
          exact ⟨hp.1, Finset.mem_of_mem_erase hp.2⟩
        · intro hp
          refine ⟨hp.1, Finset.mem_erase.mpr ⟨fun heq => ha ?_, hp.2⟩⟩
          exact h.unique a b (hp.1 ▸ h.real) (hp.1.trans hdb.symm) (heq.trans hx.symm)
      simp only [hiff]
  · grind [h.held]
  · grind [h.cached, Finset.mem_of_mem_erase]
  · rw [hne a fun hab => ha (hab ▸ hb)]
    exact h.data a ha
  · by_cases hyx : y = x
    · rw [hyx]
      exact hclean
    · exact h.clean y fun hyP => hy (Finset.mem_erase.mpr ⟨hyx, hyP⟩)

/-- A buffer that shows the contents of its block is given back. -/
theorem Sole.brelse (hb : b ∈ H) (hdata : (c.buf b).data = v (c.buf b).blockno)
    (hQ : ∀ c', c'.disk = c.disk → c'.power = c.power → (∀ a, (c'.buf a).data = (c.buf a).data
        ∧ (c'.buf a).blockno = (c.buf a).blockno) →
      Sole t dev P v (H.erase b) c' → Q () c') : wp E (brelse t b) Q c := by
  have hlock : (c.buf b).lock = some t := by rw [h.lock b, if_pos hb]
  refine .bind (M := fun _ c1 => c1 = c.updBuf b fun q => { q with lock := none })
    (.get_bind (.ite (fun hl => absurd hlock hl) fun _ => .modify rfl))
    fun _ c1 hc1 => .modify ?_
  rw [hc1]
  dsimp only
  rw [updBuf_updBuf]
  generalize hf : (fun q : Buf => { q with lock := none, refcnt := q.refcnt - 1 }) = f
  have hself := updBuf_self c b f
  have hne : ∀ a, a ≠ b → (c.updBuf b f).buf a = c.buf a := fun a ha => updBuf_of_ne c f ha
  -- in front or not, the buffers are the same
  obtain ⟨c', hc', hl, hbuf, hdisk, hpow⟩ : ∃ c', c' = (
        if ((c.updBuf b f).buf b).refcnt = 0 then (c.updBuf b f).toFront b else c.updBuf b f)
      ∧ c'.Listed ∧ c'.buf = (c.updBuf b f).buf ∧ c'.disk = c.disk
      ∧ c'.power = c.power := by
    refine ⟨_, rfl, ?_⟩
    split
    · exact ⟨(h.listed.updBuf b f).toFront b, rfl, rfl, rfl⟩
    · exact ⟨h.listed.updBuf b f, rfl, rfl, rfl⟩
  rw [← hc']
  have hself' : c'.buf b = f (c.buf b) := by rw [hbuf, hself]
  have hne' : ∀ a, a ≠ b → c'.buf a = c.buf a := fun a ha => (congrFun hbuf a).trans (hne a ha)
  have hin : ∀ a, a ≠ b → (a ∈ H.erase b ↔ a ∈ H) := fun a ha =>
    ⟨Finset.mem_of_mem_erase, fun hm => Finset.mem_erase.mpr ⟨ha, hm⟩⟩
  rw [← hf] at hself'
  refine hQ c' hdisk hpow (fun a => ?_) ⟨h.real, hl,
    h.unique.work hself' hne' rfl rfl, fun a => ?_, fun a => ?_,
    fun a ha => ?_, fun y hy => ?_, fun a ha hd hv => ?_, fun y hy => ?_⟩
  · grind
  · grind [Finset.notMem_erase, h.lock]
  · grind [h.refs, Finset.notMem_erase, Buf.pinned]
  · grind [Finset.ne_of_mem_erase, h.held, Finset.mem_of_mem_erase]
  · obtain ⟨a, had⟩ := h.cached y hy
    refine ⟨a, ?_⟩
    by_cases hab : a = b
    · grind
    · rw [hne' a hab]
      exact had
  · grind [h.data]
  · rw [hdisk]
    exact h.clean y hy

omit h

end GemOS
