/-
The buffer cache stays intact, whoever uses it and in which order.

`Bcache.Listed` is about the links alone, and `wp_bget` says all there is
to say about the search. The invariant `BufInv` of the concurrent system
adds that no block is cached twice and that a reference count is exactly
the references there are: pins, the holder, and the processes between two
sections of a call. From the last one, a decrement never finds zero.
-/
import GemOS.Lib.Wp
import GemOS.Lib.Tally
import GemOS.Kernel.BioSystem

namespace GemOS

open Function Prog

-- ======== the links

/-- The links form one circle through the head and all buffers. -/
def Bcache.Listed (c : Bcache) : Prop :=
  ∃ l, CircList c.next c.prev l ∧ ∀ b, b ∈ l

section links

variable {c : Bcache} {b : BufId} {l : List BufId}

theorem linkFirst_circ (h : CircList c.next c.prev l) (hb : b ∉ l) :
    CircList (c.linkFirst b).next (c.linkFirst b).prev (b :: l) := by
  have hnone : update c.next (some b) (c.next none) none = c.next none := update_of_ne (by simp) _ _
  have hpush := h.push hb
  rw [← hnone] at hpush
  unfold Bcache.linkFirst
  dsimp only
  rw [hnone] at hpush ⊢
  exact hpush

theorem foldl_linkFirst_circ {bs : List BufId}
    (h : CircList c.next c.prev l) (hnd : bs.Nodup) (hbs : ∀ b ∈ bs, b ∉ l) :
    CircList (bs.foldl Bcache.linkFirst c).next
      (bs.foldl Bcache.linkFirst c).prev (bs.reverse ++ l) := by
  induction bs generalizing c l with
  | nil => exact h
  | cons b bs ih => grind [linkFirst_circ]

theorem foldl_linkFirst_buf (bs : List BufId) (c : Bcache) :
    (bs.foldl Bcache.linkFirst c).buf = c.buf := by
  induction bs generalizing c with
  | nil => rfl
  | cons b bs ih => rw [List.foldl_cons, ih]; rfl

theorem foldl_linkFirst_disk (bs : List BufId) (c : Bcache) :
    (bs.foldl Bcache.linkFirst c).disk = c.disk
      ∧ (bs.foldl Bcache.linkFirst c).power = c.power := by
  induction bs generalizing c with
  | nil => exact ⟨rfl, rfl⟩
  | cons b bs ih =>
    rw [List.foldl_cons]
    exact ih (c.linkFirst b)

theorem binit_disk (disk : Nat → Block) (power : Nat) :
    (binit disk power).disk = disk ∧ (binit disk power).power = power :=
  foldl_linkFirst_disk (List.finRange nbuf) _

/-- After `binit` the list has every buffer. -/
theorem binit_listed (disk : Nat → Block) (power : Nat) : (binit disk power).Listed := by
  have hempty : CircList (fun _ : Option BufId => none) (fun _ => none) [] := .empty rfl rfl
  refine ⟨_, foldl_linkFirst_circ hempty (List.nodup_finRange nbuf)
    (fun _ _ => by simp), fun b => ?_⟩
  simp

theorem binit_buf (disk : Nat → Block) (power : Nat) (b : BufId) :
    (binit disk power).buf b = .initial := by
  unfold binit
  rw [foldl_linkFirst_buf]

/-- Moving a buffer to the front keeps the circle. -/
theorem Bcache.Listed.toFront (h : c.Listed) (b : BufId) : (c.toFront b).Listed := by
  obtain ⟨l, hl, hall⟩ := h
  obtain ⟨pre, post, rfl⟩ := List.append_of_mem (hall b)
  obtain ⟨-, hseg⟩ := Seg.split.mp hl.seg
  -- a node is not its own successor, so its own link is read unchanged
  have hself : some b ≠ c.next (some b) := by
    grind [hseg.next_mem, List.nodup_cons, hl.nodup.of_append_right]
  have hb : b ∉ pre ++ post := by grind [hl.nodup]
  have hunlink := hl.unlink
  refine ⟨b :: (pre ++ post), ?_, fun a => ?_⟩
  · grind [Bcache.toFront, update_apply, linkFirst_circ]
  · have ha := hall a
    simp only [List.mem_append, List.mem_cons] at ha ⊢
    rcases ha with ha | ha | ha
    · exact .inr (.inl ha)
    · exact .inl ha
    · exact .inr (.inr ha)

theorem Bcache.Listed.updBuf (h : c.Listed) (b : BufId) (f : Buf → Buf) : (c.updBuf b f).Listed := h

@[simp] theorem updBuf_self (c : Bcache) (b : BufId) (f : Buf → Buf) :
    (c.updBuf b f).buf b = f (c.buf b) := update_self ..

theorem updBuf_of_ne (c : Bcache) {a : BufId} (f : Buf → Buf) (h : a ≠ b) :
    (c.updBuf b f).buf a = c.buf a :=
  update_of_ne h ..

end links

-- ======== the search

/-- `bget` finds the block, or takes over an unused buffer, or there is
none. -/
theorem wp_bget {E : Stop → Prop} {c : Bcache} {dev blockno : Nat}
    {Q : BufId → Bcache → Prop} (hc : c.Listed) (hhit : ∀ b, (c.buf b).holds dev blockno = true →
      Q b (c.updBuf b fun q => { q with refcnt := q.refcnt + 1 }))
    (hmiss : (∀ b, (c.buf b).holds dev blockno = false) → ∀ b, (c.buf b).refcnt = 0 →
        Q b (c.updBuf b fun q => q.recycled dev blockno))
    (hnone : (∀ b, (c.buf b).holds dev blockno = false) → (∀ b, (c.buf b).refcnt ≠ 0) →
      E ⟨.panic "bget: no buffers", c.disk, c.power⟩) :
    wp E (bget dev blockno) Q c := by
  obtain ⟨l, hl, hall⟩ := hc
  have hlen : l.length ≤ nbuf := by
    have h := hl.nodup.length_le_card
    rwa [Fintype.card_fin] at h
  refine .get_bind ?_
  rw [hl.seg.scan_next hlen]
  cases hfind : l.find? fun b => (c.buf b).holds dev blockno with
  | some b =>
    have hb := List.find?_some hfind
    exact .modify_bind (.pure (hhit b hb))
  | none =>
    have hno : ∀ b, (c.buf b).holds dev blockno = false := by grind
    dsimp only
    rw [hl.seg.scan_prev hlen]
    cases hfree : l.reverse.find? fun b => (c.buf b).unused with
    | some b =>
      have hb := List.find?_some hfree
      exact .modify_bind (.pure (hmiss hno b (of_decide_eq_true hb)))
    | none =>
      refine .get_bind (.fault (hnone hno fun b hb => ?_))
      have h := List.find?_eq_none.mp hfree b (List.mem_reverse.mpr (hall b))
      exact h (decide_eq_true hb)

-- ======== the invariant

/-- Is the process, between two sections, a reference to `b` that no lock
shows? -/
def BufCall.refers (b : BufId) : BufCall → Nat
  | .getting a => if a = b then 1 else 0
  | .releasing a => if a = b then 1 else 0
  | _ => 0

/-- The processes that are between two sections of a call on `b`. -/
def BufSys.underway (s : BufSys) (b : BufId) : Nat :=
  tally Finset.univ (BufCall.refers b) s.call

def Buf.held (q : Buf) : Nat := if q.lock.isSome then 1 else 0

/-- No block of a device is cached twice. Device 0 is that of the buffers
that were never used. -/
def Bcache.Unique (c : Bcache) : Prop :=
  ∀ a b, 1 ≤ (c.buf a).dev → (c.buf a).dev = (c.buf b).dev →
    (c.buf a).blockno = (c.buf b).blockno → a = b

structure BufInv (s : BufSys) : Prop where
  listed : s.cache.Listed
  unique : s.cache.Unique
  refs : ∀ b, (s.cache.buf b).refcnt = s.pins b + (s.cache.buf b).held + s.underway b
  reading : ∀ t b, s.call t = .reading b → (s.cache.buf b).lock = some t

/-- What happens to a buffer in use: it keeps its block, and if it was
read, its contents, except that its holder may store into it. -/
def BufKept (o : BufOp) (s s' : BufSys) : Prop :=
  ∀ b, 0 < (s.cache.buf b).refcnt → (s'.cache.buf b).dev = (s.cache.buf b).dev
      ∧ (s'.cache.buf b).blockno = (s.cache.buf b).blockno
      ∧ ((s.cache.buf b).valid = true → (s'.cache.buf b).valid = true
        ∧ ((∀ t d, (s.cache.buf b).lock = some t → o ≠ .store t b d) →
          (s'.cache.buf b).data = (s.cache.buf b).data))

section invariant

variable {s : BufSys} {t : ProcId} {b : BufId}

/-- What is underway after `t` has moved on from one point of a call to the
next. -/
theorem underway_set (s : BufSys) (t : ProcId) (k : BufCall) (b : BufId) :
    tally Finset.univ (BufCall.refers b) (update s.call t k)
      + (s.call t).refers b = s.underway b + k.refers b :=
  tally_update (Finset.mem_univ t) k

theorem refers_self (b : BufId) :
    (BufCall.getting b).refers b = 1 ∧ (BufCall.releasing b).refers b = 1 :=
  ⟨if_pos rfl, if_pos rfl⟩

theorem refers_of_ne {a : BufId} (h : a ≠ b) :
    (BufCall.getting a).refers b = 0 ∧ (BufCall.releasing a).refers b = 0 :=
  ⟨if_neg h, if_neg h⟩

variable {c : Bcache} {q : Buf} {pins : BufId → Nat}

/-- Work on a buffer that keeps its block. -/
theorem Bcache.Unique.work {c' : Bcache} (h : c.Unique) (hq : c'.buf b = q)
    (hbuf : ∀ a, a ≠ b → c'.buf a = c.buf a) (hdev : q.dev = (c.buf b).dev)
    (hblockno : q.blockno = (c.buf b).blockno) : c'.Unique := by
  have hsame : ∀ a, (c'.buf a).dev = (c.buf a).dev
      ∧ (c'.buf a).blockno = (c.buf a).blockno := by grind
  intro a d hd heq hno
  rw [(hsame a).1] at hd
  rw [(hsame a).1, (hsame d).1] at heq
  rw [(hsame a).2, (hsame d).2] at hno
  exact h a d hd heq hno

/-- A buffer is given a block that no buffer holds. -/
theorem Bcache.Unique.recycle {dev blockno : Nat} (h : c.Unique)
    (hno : ∀ a, (c.buf a).holds dev blockno = false) (b : BufId) :
    (c.updBuf b fun q => q.recycled dev blockno).Unique := by
  have hfresh : ∀ a, (c.buf a).dev = dev → (c.buf a).blockno = blockno →
      False := fun a h1 h2 => of_decide_eq_false (hno a) ⟨h1, h2⟩
  have hnew : (c.updBuf b fun q => q.recycled dev blockno).buf b
      = (c.buf b).recycled dev blockno := updBuf_self ..
  have hother : ∀ a, a ≠ b → (c.updBuf b fun q => q.recycled dev blockno).buf a = c.buf a :=
    fun a ha => updBuf_of_ne _ _ ha
  intro a d hdev heq hbn
  by_cases ha : a = b
  · by_cases hd : d = b
    · rw [ha, hd]
    · rw [ha, hnew, hother d hd] at heq hbn
      exact (hfresh d heq.symm hbn.symm).elim
  · by_cases hd : d = b
    · rw [hd, hnew, hother a ha] at heq hbn
      exact (hfresh a heq hbn).elim
    · rw [hother a ha, hother d hd] at heq hbn
      rw [hother a ha] at hdev
      exact h a d hdev heq hbn

/-- A step that works on buffer `b` and moves one process, neither of
whose points concerns another buffer. -/
theorem BufInv.work {k : BufCall} (h : BufInv s) (hl : c.Listed) (hu : c.Unique)
    (hq : c.buf b = q) (hbuf : ∀ a, a ≠ b → c.buf a = s.cache.buf a)
    (hpins : ∀ a, a ≠ b → pins a = s.pins a) (hcall : ∀ a, a ≠ b → (s.call t).refers a = k.refers a)
    (hrefs : q.refcnt + (s.call t).refers b = pins b + q.held + s.underway b + k.refers b)
    (hlock : ∀ u, u ≠ t → s.call u = .reading b → q.lock = some u)
    (hk : ∀ a, k = .reading a → (c.buf a).lock = some t) : BufInv ⟨c, update s.call t k, pins⟩ := by
  refine ⟨hl, hu, fun a => ?_, fun u a hua => ?_⟩
  · have hunder := underway_set s t k a
    show (c.buf a).refcnt = pins a + (c.buf a).held + ((tally Finset.univ (BufCall.refers a)
        (update s.call t k) : Nat) : Int)
    by_cases ha : a = b
    · grind
    · grind [h.refs]
  · grind [update_apply, h.reading]

/-- A buffer nobody refers to is neither pinned nor locked. -/
theorem BufInv.free (h : BufInv s) (hb : (s.cache.buf b).refcnt = 0) :
    s.pins b = 0 ∧ (s.cache.buf b).held = 0 ∧ s.underway b = 0 := by
  have hrefs := h.refs b
  rw [hb] at hrefs
  omega

theorem held_eq_zero (h : q.held = 0) : q.lock = none := by
  unfold Buf.held at h
  split at h
  · cases h
  · next hl => simpa using hl

/-- Buffers other than `b` are left alone, and `b` keeps its block and,
unless its holder stores, what was read into it. -/
theorem BufKept.work {o : BufOp} {call : ProcId → BufCall} (hq : c.buf b = q)
    (hbuf : ∀ a, a ≠ b → c.buf a = s.cache.buf a)
    (hb : 0 < (s.cache.buf b).refcnt → q.dev = (s.cache.buf b).dev
      ∧ q.blockno = (s.cache.buf b).blockno
      ∧ ((s.cache.buf b).valid = true → q.valid = true
        ∧ ((∀ t d, (s.cache.buf b).lock = some t → o ≠ .store t b d) →
          q.data = (s.cache.buf b).data))) : BufKept o s ⟨c, call, pins⟩ := by
  intro a ha
  show (c.buf a).dev = _ ∧ (c.buf a).blockno = _
    ∧ (_ → (c.buf a).valid = true ∧ (_ → (c.buf a).data = _))
  by_cases hab : a = b
  · grind
  · rw [hbuf a hab]
    exact ⟨rfl, rfl, fun hv => ⟨hv, fun _ => rfl⟩⟩

end invariant

-- ======== the steps

section steps

variable {s : BufSys} {t : ProcId} {b : BufId}

/-- What a step has to keep. -/
def BufPost (o : BufOp) (s : BufSys) : Unit → BufSys → Prop :=
  fun _ s' => BufInv s' ∧ BufKept o s s'

/-- A step may always turn out to be impossible. -/
def anyStop : Stop → Prop := fun _ => True

variable {c : Bcache} {α : Type} {Q : Unit → BufSys → Prop} {x : BufM Unit}
  {o : BufOp} {pins : BufId → Nat} {q : Buf}

theorem wp_halt {E : Stop → Prop} {w : Halt} {Q : α → Bcache → Prop}
    (h : E ⟨w, c.disk, c.power⟩) : wp E (halt w) Q c := .get_bind (.fault h)

theorem wp_blocked : wp anyStop (onCache (halt .blocked)) Q s :=
  .zoom (Q := fun _ _ => False) (wp_halt trivial) fun _ _ h => h.elim

theorem wp_whenIdle (h : s.call t = .idle → wp anyStop x Q s) : wp anyStop (whenIdle t x) Q s := by
  refine .get_bind ?_
  cases hk : s.call t with
  | idle => exact h hk
  | _ => exact wp_blocked

theorem wp_whenHolding (h : s.call t = .idle → (s.cache.buf b).lock = some t →
      wp anyStop x Q s) : wp anyStop (whenHolding t b x) Q s :=
  wp_whenIdle fun hk => .get_bind (.ite (fun hl => h hk hl) fun _ => wp_blocked)

theorem wp_onCache {x : BioM α} {Q : α → BufSys → Prop}
    (h : wp anyStop x (fun a c => Q a ⟨c, s.call, s.pins⟩) s.cache) :
    wp anyStop (onCache x) Q s := .zoom h fun _ _ hq => hq

/-- A section on the cache, after which the process moves on. -/
theorem wp_thenCall {x : BioM α} {k : α → BufCall} (h : wp anyStop x (fun a c =>
      Q () ⟨c, update s.call t (k a), s.pins⟩) s.cache) :
    wp anyStop (onCache x >>= fun a => setCall t (k a)) Q s :=
  .bind (.zoom h (R := fun a s' => Q ()
    ⟨s'.cache, update s'.call t (k a), s'.pins⟩) fun _ _ hq => hq) fun _ _ hq => .modify hq

/-- A section on the cache that counts as a pin. -/
theorem wp_thenPins {x : BioM Unit} {n : Nat} (h : wp anyStop x (fun _ c =>
      Q () ⟨c, s.call, update s.pins b n⟩) s.cache) :
    wp anyStop (onCache x >>= fun _ => setPins b n) Q s :=
  .bind (.zoom h (R := fun _ s' => Q () ⟨s'.cache, s'.call, update s'.pins b n⟩) fun _ _ hq => hq)
    fun _ _ hq => .modify hq

variable (h : BufInv s)

include h

/-- A step on a buffer that keeps its block. -/
theorem BufPost.work {k : BufCall} (hl : c.Listed)
    (hq : c.buf b = q) (hbuf : ∀ a, a ≠ b → c.buf a = s.cache.buf a)
    (hdev : q.dev = (s.cache.buf b).dev) (hblockno : q.blockno = (s.cache.buf b).blockno)
    (hdata : (s.cache.buf b).valid = true → q.valid = true
      ∧ ((∀ t d, (s.cache.buf b).lock = some t → o ≠ .store t b d) → q.data = (s.cache.buf b).data))
    (hpins : ∀ a, a ≠ b → pins a = s.pins a)
    (hcall : ∀ a, a ≠ b → (s.call t).refers a = k.refers a)
    (hrefs : q.refcnt + (s.call t).refers b = pins b + q.held + s.underway b + k.refers b)
    (hlock : ∀ u, u ≠ t → s.call u = .reading b → q.lock = some u)
    (hk : ∀ a, k = .reading a → (c.buf a).lock = some t) :
    BufPost o s () ⟨c, update s.call t k, pins⟩ :=
  ⟨h.work hl (h.unique.work hq hbuf hdev hblockno) hq hbuf hpins hcall hrefs
    hlock hk, .work hq hbuf fun _ => ⟨hdev, hblockno, hdata⟩⟩

/-- A step in which no process moves. -/
theorem BufPost.stay (hl : c.Listed) (hq : c.buf b = q)
    (hbuf : ∀ a, a ≠ b → c.buf a = s.cache.buf a) (hdev : q.dev = (s.cache.buf b).dev)
    (hblockno : q.blockno = (s.cache.buf b).blockno)
    (hdata : (s.cache.buf b).valid = true → q.valid = true
      ∧ ((∀ t d, (s.cache.buf b).lock = some t → o ≠ .store t b d) → q.data = (s.cache.buf b).data))
    (hpins : ∀ a, a ≠ b → pins a = s.pins a)
    (hrefs : q.refcnt = pins b + q.held + s.underway b)
    (hlock : q.lock = (s.cache.buf b).lock) :
    BufPost o s () ⟨c, s.call, pins⟩ := by
  have hself := update_eq_self (0 : ProcId) s.call
  rw [← hself]
  refine .work h hl hq hbuf hdev hblockno hdata hpins (fun _ _ => rfl)
    (by omega) (fun u _ hu => ?_) fun a ha => ?_
  · rw [hlock]
    exact h.reading u b hu
  · grind [h.reading]

section upd

variable {o : BufOp} {k : BufCall} {pins : BufId → Nat} {f : Buf → Buf}

/-- A step that rewrites one buffer. -/
theorem BufPost.upd (hblock : (f (s.cache.buf b)).dev = (s.cache.buf b).dev
      ∧ (f (s.cache.buf b)).blockno = (s.cache.buf b).blockno)
    (hdata : (s.cache.buf b).valid = true → (f (s.cache.buf b)).valid = true
      ∧ (f (s.cache.buf b)).data = (s.cache.buf b).data)
    (hcall : ∀ a, a ≠ b → (s.call t).refers a = k.refers a)
    (hrefs : (f (s.cache.buf b)).refcnt + (s.call t).refers b
      = s.pins b + (f (s.cache.buf b)).held + s.underway b + k.refers b)
    (hlock : ∀ u, u ≠ t → s.call u = .reading b → (f (s.cache.buf b)).lock = some u)
    (hk : ∀ a, k = .reading a → a = b ∧ (f (s.cache.buf b)).lock = some t) :
    BufPost o s () ⟨s.cache.updBuf b f, update s.call t k, s.pins⟩ := by
  refine .work h h.listed (updBuf_self ..) (fun a ha => updBuf_of_ne _ _ ha)
    hblock.1 hblock.2 (fun hv => ⟨(hdata hv).1, fun _ => (hdata hv).2⟩)
    (fun _ _ => rfl) hcall hrefs hlock fun a ha => ?_
  obtain ⟨rfl, hl⟩ := hk a ha
  rw [updBuf_self]
  exact hl

/-- A step that rewrites one buffer, in which no process moves. -/
theorem BufPost.updStay (hblock : (f (s.cache.buf b)).dev = (s.cache.buf b).dev
      ∧ (f (s.cache.buf b)).blockno = (s.cache.buf b).blockno)
    (hdata : (s.cache.buf b).valid = true → (f (s.cache.buf b)).valid = true
      ∧ ((∀ t d, (s.cache.buf b).lock = some t → o ≠ .store t b d) →
        (f (s.cache.buf b)).data = (s.cache.buf b).data))
    (hpins : ∀ a, a ≠ b → pins a = s.pins a)
    (hrefs : (f (s.cache.buf b)).refcnt = pins b + (f (s.cache.buf b)).held + s.underway b)
    (hlock : (f (s.cache.buf b)).lock = (s.cache.buf b).lock) :
    BufPost o s () ⟨s.cache.updBuf b f, s.call, pins⟩ :=
  .stay h h.listed (updBuf_self ..) (fun _ ha => updBuf_of_ne _ _ ha)
    hblock.1 hblock.2 hdata hpins hrefs hlock

end upd

/-- `bget` recycles only a buffer nobody refers to. -/
theorem wp_find {dev blockno : Nat} : wp anyStop (BufOp.find t dev blockno).prog
      (BufPost (.find t dev blockno) s) s := by
  refine wp_whenIdle fun hk => wp_thenCall (wp_bget h.listed ?_ ?_ fun _ _ => trivial)
  · -- the block is cached: one more reference
    intro b _
    have hrefs := h.refs b
    refine .upd h ⟨rfl, rfl⟩ (fun hv => ⟨hv, rfl⟩) (fun a ha => ?_) ?_
      (fun u _ hu => h.reading u b hu) nofun
    · rw [hk]
      exact (refers_of_ne ha.symm).1.symm
    · rw [hk, (refers_self b).1]
      show (s.cache.buf b).refcnt + 1 + (0 : Nat)
        = s.pins b + (s.cache.buf b).held + s.underway b + (1 : Nat)
      omega
  · -- an unused buffer is taken over
    intro hno b hb
    obtain ⟨hpins, hheld, hunder⟩ := h.free hb
    have hself := updBuf_self s.cache b fun q => q.recycled dev blockno
    have hother : ∀ a, a ≠ b → (s.cache.updBuf b fun q =>
        q.recycled dev blockno).buf a = s.cache.buf a :=
      fun a ha => updBuf_of_ne _ _ ha
    refine ⟨h.work h.listed (h.unique.recycle hno b) hself hother
      (fun _ _ => rfl) (fun a ha => ?_) ?_ ?_ nofun,
      .work hself hother fun hpos => absurd hpos (by rw [hb]; decide)⟩
    · rw [hk]
      exact (refers_of_ne ha.symm).1.symm
    · rw [hk, (refers_self b).1, hpins, hunder]
      show (1 : Int) + (0 : Nat) = (0 : Nat) + (s.cache.buf b).held + (0 : Nat) + (1 : Nat)
      omega
    · intro u _ hu
      have hl := h.reading u b hu
      rw [held_eq_zero hheld] at hl
      cases hl

theorem wp_lock : wp anyStop (BufOp.lock t).prog (BufPost (.lock t) s) s := by
  refine .get_bind ?_
  cases hk : s.call t with
  | getting b =>
    refine wp_thenCall (.get_bind (.ite (fun _ => wp_halt trivial) fun hl => .modify ?_))
    have hnone : (s.cache.buf b).lock = none := by simpa using hl
    have hheld : (s.cache.buf b).held = 0 := by
      unfold Buf.held
      rw [hnone]
      rfl
    have hrefs := h.refs b
    refine .upd h ⟨rfl, rfl⟩ (fun hv => ⟨hv, rfl⟩) (fun a ha => ?_) ?_
      (fun u _ hu => ?_) fun a ha => ?_
    · rw [hk]
      exact (refers_of_ne ha.symm).1
    · rw [hk, (refers_self b).1]
      show (s.cache.buf b).refcnt + (1 : Nat) = s.pins b + (1 : Nat) + s.underway b + (0 : Nat)
      omega
    · grind [h.reading]
    · cases ha
      exact ⟨rfl, rfl⟩
  | _ => exact wp_blocked

theorem wp_read : wp anyStop (BufOp.read t).prog (BufPost (.read t) s) s := by
  refine .get_bind ?_
  cases hk : s.call t with
  | reading b =>
    have hrefs := h.refs b
    have hcount : (s.cache.buf b).refcnt + (s.call t).refers b
        = s.pins b + (s.cache.buf b).held + s.underway b + BufCall.idle.refers b := by
      rw [hk, hrefs]
      rfl
    refine wp_thenCall (.get_bind (.ite (fun _ => .pure ?_) fun hv => .modify ?_))
    · refine .work (b := b) h h.listed rfl (fun _ _ => rfl) rfl rfl
        (fun hv => ⟨hv, fun _ => rfl⟩) (fun _ _ => rfl) (fun a _ => ?_)
        hcount (fun u _ hu => h.reading u b hu) nofun
      rw [hk]
      rfl
    · refine .upd h ⟨rfl, rfl⟩ (fun h' => absurd h' hv) (fun a _ => ?_)
        hcount (fun u _ hu => h.reading u b hu) nofun
      rw [hk]
      rfl
  | _ => exact wp_blocked

theorem wp_store {d : Block} :
    wp anyStop (BufOp.store t b d).prog (BufPost (.store t b d) s) s := by
  refine wp_whenHolding fun _ hl => wp_onCache (.modify ?_)
  exact .updStay h ⟨rfl, rfl⟩ (fun hv => ⟨hv, fun hno => absurd rfl (hno t d hl)⟩) (fun _ _ => rfl)
    (h.refs b) rfl

theorem wp_write : wp anyStop (BufOp.write t b).prog (BufPost (.write t b) s) s := by
  refine wp_whenHolding fun _ _ => .zoom (Q := fun _ (c : Bcache) =>
      c.Listed ∧ c.buf = s.cache.buf) (.get_bind (.ite
      (fun _ => wp_halt trivial) fun _ => .ite (fun _ => wp_halt trivial)
      fun _ => .modify ⟨h.listed, rfl⟩))
    fun _ c hc => ?_
  exact .stay (b := b) h hc.1 (congrFun hc.2 b) (fun a _ => congrFun hc.2 a)
    rfl rfl (fun hv => ⟨hv, fun _ => rfl⟩) (fun _ _ => rfl) (h.refs b) rfl

theorem wp_unlock : wp anyStop (BufOp.unlock t b).prog (BufPost (.unlock t b) s) s := by
  refine wp_whenHolding fun hk hl => wp_thenCall (.get_bind (.ite
    (fun _ => wp_halt trivial) fun _ => .modify ?_))
  have hheld : (s.cache.buf b).held = 1 := by
    unfold Buf.held
    rw [hl]
    rfl
  have hrefs := h.refs b
  refine .upd h ⟨rfl, rfl⟩ (fun hv => ⟨hv, rfl⟩) (fun a ha => ?_) ?_ (fun u hu hr => ?_) nofun
  · rw [hk]
    exact (refers_of_ne ha.symm).2.symm
  · rw [hk, (refers_self b).2]
    show (s.cache.buf b).refcnt + (0 : Nat) = s.pins b + (0 : Nat) + s.underway b + (1 : Nat)
    omega
  · -- nobody else can be reading into a buffer that `t` holds
    have hl' := h.reading u b hr
    rw [hl] at hl'
    exact absurd (Option.some.inj hl').symm hu

/-- The last reference gone, the buffer is first in the list. -/
theorem wp_unref : wp anyStop (BufOp.unref t).prog (BufPost (.unref t) s) s := by
  refine .get_bind ?_
  cases hk : s.call t with
  | releasing b =>
    refine wp_thenCall (.modify ?_)
    have hself := updBuf_self s.cache b fun q => { q with refcnt := q.refcnt - 1 }
    have hrefs := h.refs b
    -- in front or not, the buffers are the same
    obtain ⟨c, hc, hl, hbuf⟩ : ∃ c, c = (
          let c := s.cache.updBuf b fun q => { q with refcnt := q.refcnt - 1 }
          if (c.buf b).refcnt = 0 then c.toFront b else c)
        ∧ c.Listed ∧ c.buf = (s.cache.updBuf b fun q => { q with refcnt := q.refcnt - 1 }).buf := by
      refine ⟨_, rfl, ?_⟩
      dsimp only
      split
      · exact ⟨h.listed.toFront b, rfl⟩
      · exact ⟨h.listed, rfl⟩
    rw [← hc]
    refine .work h hl ((congrFun hbuf b).trans hself)
      (fun a ha => (congrFun hbuf a).trans (updBuf_of_ne _ _ ha)) rfl rfl
      (fun hv => ⟨hv, fun _ => rfl⟩) (fun _ _ => rfl) (fun a ha => ?_) ?_
      (fun u _ hu => h.reading u b hu) nofun
    · rw [hk]
      exact (refers_of_ne ha.symm).2
    · rw [hk, (refers_self b).2]
      show (s.cache.buf b).refcnt - 1 + (1 : Nat)
        = s.pins b + (s.cache.buf b).held + s.underway b + (0 : Nat)
      omega
  | _ => exact wp_blocked

theorem wp_pin : wp anyStop (BufOp.pin b).prog (BufPost (.pin b) s) s := by
  refine .get_bind (wp_thenPins (.modify ?_))
  have hrefs := h.refs b
  refine .updStay h ⟨rfl, rfl⟩ (fun hv => ⟨hv, fun _ => rfl⟩)
    (fun a ha => update_of_ne ha ..) ?_ rfl
  rw [update_self]
  show (s.cache.buf b).refcnt + 1 = (s.pins b + 1 : Nat) + (s.cache.buf b).held + s.underway b
  omega

theorem wp_unpin : wp anyStop (BufOp.unpin b).prog (BufPost (.unpin b) s) s := by
  refine .get_bind (.ite (fun _ => wp_blocked) fun hpos => wp_thenPins (.modify ?_))
  have hrefs := h.refs b
  refine .updStay h ⟨rfl, rfl⟩ (fun hv => ⟨hv, fun _ => rfl⟩)
    (fun a ha => update_of_ne ha ..) ?_ rfl
  rw [update_self]
  show (s.cache.buf b).refcnt - 1 = (s.pins b - 1 : Nat) + (s.cache.buf b).held + s.underway b
  omega

omit h

theorem wp_bufOp (o : BufOp) (h : BufInv s) : wp anyStop o.prog (BufPost o s) s := by
  cases o with
  | find t dev blockno => exact wp_find h
  | lock t => exact wp_lock h
  | read t => exact wp_read h
  | store t b d => exact wp_store h
  | write t b => exact wp_write h
  | unlock t b => exact wp_unlock h
  | unref t => exact wp_unref h
  | pin b => exact wp_pin h
  | unpin b => exact wp_unpin h

end steps

-- ======== the runs

variable {s : BufSys}

theorem BufFresh.inv (h : BufFresh s) : BufInv s := by
  obtain ⟨⟨disk, power, hc⟩, hcall, hpins⟩ := h
  have hbuf : ∀ b, s.cache.buf b = .initial := by
    intro b
    rw [hc]
    exact binit_buf disk power b
  refine ⟨by rw [hc]; exact binit_listed disk power, fun a b hdev => ?_,
    fun b => ?_, fun t b ht => ?_⟩
  · rw [hbuf a] at hdev
    exact absurd hdev (by decide)
  · have hunder : s.underway b = 0 := tally_eq_zero.mpr fun t _ => by rw [hcall t]; rfl
    rw [hbuf b, hpins b, hunder]
    rfl
  · rw [hcall t] at ht
    cases ht

/-- The invariant holds in every run. -/
theorem BufRuns.inv {n : Notes Empty BufSys} (h : BufRuns n s) : BufInv s := by
  induction h with
  | init hs => exact hs.inv
  | step o _ hrun _ ih => exact ((wp_bufOp o ih).ok hrun).1

/-- A process is in one call at a time. -/
theorem underway_le (s : BufSys) (b : BufId) : s.underway b ≤ nproc := by
  have hone : ∀ t ∈ Finset.univ, (s.call t).refers b ≤ 1 := by
    intro t _
    unfold BufCall.refers
    split <;> first | (split <;> decide) | decide
  exact (tally_le_card hone).trans_eq (Fintype.card_fin nproc)

/-- In every state of every run: the list is one circle through all
buffers, no block is cached twice, counts are the references there are
(so not negative, and in the range of the `uint` while fewer than
`2^32 - nproc - 1` pins are outstanding), and whatever happens next, a
buffer in use keeps its block and its contents. -/
theorem buffer_cache_intact {n : Notes Empty BufSys} {s : BufSys} (h : BufRuns n s) :
    s.cache.Listed ∧ s.cache.Unique ∧ (∀ b, (s.cache.buf b).refcnt
          = s.pins b + (s.cache.buf b).held + s.underway b)
      ∧ (∀ b, 0 ≤ (s.cache.buf b).refcnt ∧ (s.cache.buf b).refcnt ≤ s.pins b + (nproc + 1 : Nat))
      ∧ ∀ o s' n', o.prog s = .ok ((), s', n') → BufKept o s s' := by
  have hinv := h.inv
  refine ⟨hinv.listed, hinv.unique, hinv.refs, fun b => ?_,
    fun o s' n' hrun => ((wp_bufOp o hinv).ok hrun).2⟩
  have hheld : (s.cache.buf b).held ≤ 1 := by
    unfold Buf.held
    split <;> decide
  have hunder := underway_le s b
  rw [hinv.refs b]
  omega

/-- The cache over a disk of zeros. -/
def idleCache : BufSys :=
  { cache := binit (fun _ _ => 0) 0, call := fun _ => .idle, pins := fun _ => 0 }

/-- Process 0 reads block 7 and pins it, and process 1 reads it as well. -/
def pinSeven : List BufOp :=
  [.find 0 1 7, .lock 0, .read 0, .pin 0, .find 1 1 7, .unlock 0 0, .lock 1, .unref 0, .read 1]

theorem buffer_cache_intact_pinned : ∃ n s, BufRuns n s ∧ (s.cache.buf 0).blockno = 7
      ∧ (s.cache.buf 0).refcnt = 2 ∧ (s.cache.buf 0).lock = some 1
      ∧ s.cache.Listed ∧ s.cache.Unique
      ∧ ∀ o s' n', o.prog s = .ok ((), s', n') → BufKept o s s' := by
  have hfresh : BufRuns [] idleCache := .init ⟨⟨_, _, rfl⟩, fun _ => rfl, fun _ => rfl⟩
  obtain ⟨n, s, hr, hno, href, hlock⟩ := hfresh.played (P := fun _ s =>
    (s.cache.buf 0).blockno = 7 ∧ (s.cache.buf 0).refcnt = 2 ∧ (s.cache.buf 0).lock = some 1)
    (fun _ _ _ _ _ => trivial) pinSeven (by decide +kernel)
  obtain ⟨hlist, huniq, -, -, hkept⟩ := buffer_cache_intact hr
  exact ⟨n, s, hr, hno, href, hlock, hlist, huniq, hkept⟩

end GemOS
