/-
`bmap` and the inodes on the disk: a block that `balloc` returned goes to
a slot that named none, and `iupdate` writes what `ilock` reads.
-/
import GemOS.Proofs.Blocks

namespace GemOS

namespace Fs

open Function Prog

variable {s s' s1 : FsState} {i j k b r : Nat} {E : Halt → Prop}

-- ======== after `balloc`

namespace Allocated

variable (ha : Allocated s r s1) (hs : Sound s)

include ha hs

theorem indirect (hj : j < s.sb.ninodes) (h0 : (cur s j).addrs ndirect ≠ 0) :
    s1.blk ((cur s j).addrs ndirect) = s.blk ((cur s j).addrs ndirect) := by
  have hn := names_indirect hj h0
  apply ha.frame _ (hs.ledger.inPool _ _ hn).offMap
  intro he
  rw [he] at hn
  exact ha.fresh (hs.ledger.marked _ _ hn)

theorem disk (hj : j < s.sb.ninodes) : onDisk s1 j = onDisk s j := by
  have h1 := hs.layout.iblock_lt hj
  have h2 := bmapstart_lt_datastart s.sb
  have h3 := ha.data.1
  unfold onDisk
  rw [ha.sb, ha.frame _ (.inl h1) (by omega)]

/-- Allocation leaves the other inodes. -/
theorem elsewhere (i : Nat) : Elsewhere i s s1 where
  sb := ha.sb
  inode := fun j _ => by rw [ha.inode]
  disk := fun _ hj _ => ha.disk hs hj
  indirect := fun _ hj _ h0 => ha.indirect hs hj h0

/-- The block goes to slot `k` of inode `i`, which named none. -/
theorem sound (he : Elsewhere i s s') (hused : ∀ b, Used s' b ↔ Used s1 b)
    (hslot : ∀ x, slot s'.blk (cur s' i) x = if x = k then r else slot s.blk (cur s i) x) :
    Sound s' where
  layout := by rw [he.sb]; exact hs.layout
  reserved := fun b hb => by
    rw [hused, ha.used]
    rw [he.sb] at hb
    exact .inl (hs.reserved b hb)
  ledger := by
    rw [he.sb]
    refine hs.ledger.gain (i, k) ha.fresh ha.data (fun b => (hused b).trans (ha.used b)) ?_
    intro u b hu
    by_cases hne : u.1 = i
    · obtain ⟨j, x⟩ := u
      obtain ⟨hj, hx, hb, hv⟩ := hu
      subst hne
      dsimp only at hj hx hv
      rw [hslot] at hv
      by_cases hxk : x = k
      · rw [if_pos hxk] at hv
        exact .inl ⟨by rw [hxk], hv.symm⟩
      · rw [if_neg hxk] at hv
        exact .inr ⟨he.sb ▸ hj, hx, hb, hv⟩
    · exact .inr ((he.names hne).mp hu)

end Allocated

/-- What `bmap` may do to inode `i`: give a block to slots that named
none. -/
structure Grown (i : Nat) (s s' : FsState) : Prop where
  elsewhere : Elsewhere i s s'
  size : (cur s' i).size = (cur s i).size
  type : (cur s' i).type = (cur s i).type
  keeps : ∀ x, slot s.blk (cur s i) x ≠ 0 → slot s'.blk (cur s' i) x = slot s.blk (cur s i) x

theorem Grown.refl (i : Nat) (s : FsState) : Grown i s s := ⟨.refl i s, rfl, rfl, fun _ _ => rfl⟩

theorem Grown.trans {s'' : FsState} (h : Grown i s s') (h' : Grown i s' s'') : Grown i s s'' where
  elsewhere := h.elsewhere.trans h'.elsewhere
  size := h'.size.trans h.size
  type := h'.type.trans h.type
  keeps := fun x hx => by
    have h1 := h.keeps x hx
    rw [h'.keeps x (by rw [h1]; exact hx), h1]

/-- An empty slot of the inode gets the new block. -/
theorem Allocated.grown (ha : Allocated s r s1) (hb : Busy i s) (h0 : slot s.blk (cur s i) k = 0)
    (he : Elsewhere i s s') (hused : ∀ b, Used s' b ↔ Used s1 b)
    (hslot : ∀ x, slot s'.blk (cur s' i) x = if x = k then r else slot s.blk (cur s i) x)
    (hsize : (cur s' i).size = (cur s i).size) (htype : (cur s' i).type = (cur s i).type)
    (hvalid : (s'.inode i).valid = true) (hrange : InRange (s'.inode i).toDinode) :
    Busy i s' ∧ Grown i s s' := by
  refine ⟨he.busy hb hvalid hrange (ha.sound hb.sound he hused hslot), he, hsize, htype, ?_⟩
  intro x hx
  have hxk : x ≠ k := by grind
  rw [hslot, if_neg hxk]

theorem Busy.cur (hb : Busy i s) : cur s i = (s.inode i).toDinode := cur_of_valid hb.valid

theorem InRange.setAddr {d : Dinode} (h : InRange d) (hk : k ≤ ndirect) (hr : r < 2 ^ 32) :
    InRange { d with addrs := update d.addrs k r } := by
  refine { h with addrs := ?_, none := ?_ }
  · intro a
    dsimp only
    rw [update_apply]
    split
    · exact hr
    · exact h.addrs a
  · grind [update_apply, h.none]

/-- An address of the inode itself. -/
theorem Allocated.direct (ha : Allocated s r s1) (hb : Busy i s)
    (hk : k ≤ ndirect) (h0 : (s.inode i).addrs k = 0) {ip : Inode} (hip : ip = { s1.inode i with
      addrs := update (s1.inode i).addrs k r })
    (hs' : { s1 with inode := update s1.inode i ip } = s') :
    Busy i s' ∧ Grown i s s' ∧ slot s'.blk (Fs.cur s' i) k = r := by
  have hino : s'.inode i = { s.inode i with
      addrs := update (s.inode i).addrs k r } := by
    rw [← hs', ← ha.inode, ← hip]
    exact update_self ..
  have hblk : s'.blk = s1.blk := by rw [← hs']
  have hcur : Fs.cur s' i = { (s.inode i).toDinode with
      addrs := update (s.inode i).addrs k r } := by
    rw [cur_of_valid (by rw [hino]; exact hb.valid), hino]
  have hind := ha.indirect hb.sound hb.lt
  have hslot : ∀ x, slot s'.blk (Fs.cur s' i) x
      = if x = k then r else slot s.blk (Fs.cur s i) x := by
    intro x
    rw [hcur, hblk, hb.cur]
    rw [hb.cur] at hind
    by_cases hx : x ≤ ndirect
    · simp only [slot, hx, if_true, update_apply]
    · have hxk : x ≠ k := by omega
      simp only [slot, hx, if_false, update_apply, hxk]
      by_cases hkn : ndirect = k
      · -- the new indirect block has no words yet
        subst hkn
        simp only [if_true, h0, ha.zero, leWord]
        split <;> rfl
      · grind
  have he : Elsewhere i s s' := by
    rw [← hs']
    exact (ha.elsewhere hb.sound i).trans (.setInode i _ _)
  have hgrown := ha.grown hb (by unfold slot; rw [if_pos hk, hb.cur]; exact h0) he
    (fun b => by rw [← hs']; rfl) hslot (by rw [hcur, hb.cur])
    (by rw [hcur, hb.cur]) (by rw [hino]; exact hb.valid) ?_
  · exact ⟨hgrown.1, hgrown.2, by rw [hslot, if_pos rfl]⟩
  · rw [hino]
    have := ha.data.2
    have := hb.sound.layout.bound
    exact hb.range.setAddr hk (by omega)

/-- A block named by one slot is the indirect block of no other. -/
theorem Sound.indirect_ne (hs : Sound s) {x : Nat} (hn : Names s (i, x) b) (hj : j < s.sb.ninodes)
    (hne : (j, ndirect) ≠ (i, x)) : (cur s j).addrs ndirect ≠ b := by
  intro h
  subst h
  exact hne (hs.ledger.excl (names_indirect hj hn.2.2.1) hn)

/-- A word of the indirect block. -/
theorem Allocated.word (ha : Allocated s r s1) (hb : Busy i s)
    {ind : Nat} (hind : (s.inode i).addrs ndirect = ind) (h0 : ind ≠ 0)
    (hw : leWord (s.blk ind) j = 0) {d : Block} (hd : d = setWord (s1.blk ind) j r)
    (hs' : { s1 with blk := update s1.blk ind d } = s') :
    Busy i s' ∧ Grown i s s' ∧ slot s'.blk (Fs.cur s' i) (ndirect + 1 + j) = r := by
  have hcur : Fs.cur s i = (s.inode i).toDinode := hb.cur
  have hn : Names s (i, ndirect) ind := by
    rw [← hind, ← hcur]
    exact names_indirect hb.lt (by rw [hcur, hind]; exact h0)
  have hdata : Data s1.sb ind := by
    rw [ha.sb]
    exact hb.sound.ledger.inPool _ _ hn
  have hino : s'.inode i = s.inode i := by rw [← hs', ← ha.inode]
  have hcur' : Fs.cur s' i = (s.inode i).toDinode := by
    rw [cur_of_valid (by rw [hino]; exact hb.valid), hino]
  have hsame : s1.blk ind = s.blk ind := by
    have h1 := ha.indirect hb.sound hb.lt
    rw [hcur, hind] at h1
    exact h1 h0
  have hr : r < 2 ^ 32 := by
    have := ha.data.2
    have := hb.sound.layout.bound
    omega
  have hslot : ∀ x, slot s'.blk (Fs.cur s' i) x
      = if x = ndirect + 1 + j then r else slot s.blk (Fs.cur s i) x := by
    intro x
    rw [hcur', hcur, ← hs', hd, hsame]
    unfold slot
    dsimp only
    by_cases hx : x ≤ ndirect
    · rw [if_pos hx, if_pos hx, if_neg (by omega)]
    · grind [update_apply, Nat.add_sub_cancel_left, leWord_setWord_self, leWord_setWord_of_ne]
  have he1 := ha.elsewhere hb.sound i
  have he : Elsewhere i s s' := by
    rw [← hs']
    refine he1.trans (.store (ha.sb ▸ hb.sound.layout) hdata d ?_)
    intro x hx hne
    rw [ha.sb] at hx
    rw [he1.cur hx hne]
    exact hb.sound.indirect_ne hn hx fun h => hne (congrArg Prod.fst h)
  have hgrown := ha.grown hb (by
      rw [hcur]
      unfold slot
      rw [if_neg (by omega), hind, if_neg h0, Nat.add_sub_cancel_left]
      exact hw) he
    (fun b => by rw [← hs']; exact used_store hdata d b) hslot
    (by rw [hcur', hcur]) (by rw [hcur', hcur])
    (by rw [hino]; exact hb.valid)
    (by rw [hino]; exact hb.range)
  exact ⟨hgrown.1, hgrown.2, by rw [hslot, if_pos rfl]⟩

-- ======== `bmap`

/-- What `bmap` of slot `x` ends with. -/
def BmapEnd (i x : Nat) (s : FsState) (r : Nat) (s' : FsState) : Prop :=
  Busy i s' ∧ Grown i s s' ∧ (r ≠ 0 → slot s'.blk (cur s' i) x = r)

theorem BmapEnd.refl {x : Nat} (hb : Busy i s)
    (h : r ≠ 0 → slot s.blk (cur s i) x = r) : BmapEnd i x s r s :=
  ⟨hb, .refl i s, h⟩

/-- A direct address, or that of the indirect block. -/
theorem wp_bmapAddr {k : Nat} (hb : Busy i s) (hk : k ≤ ndirect) :
    wp E (bmapAddr i k) (BmapEnd i k s) s := by
  refine .get_bind (.ite (fun h0 => ?_) fun _ => .pure (.refl hb ?_))
  · refine (wp_balloc hb.sound.reserved).bind fun r s1 hend => ?_
    rcases hend with ⟨hr, hs⟩ | ⟨hr, ha⟩
    · rw [hr, hs]
      exact .ite (fun _ => .pure (.refl hb fun h => (h rfl).elim)) fun h => (h rfl).elim
    · refine .ite (fun h => (hr h).elim) fun _ => .seq (wp_setInode ?_)
      obtain ⟨h1, h2, h3⟩ := ha.direct hb hk h0 rfl rfl
      exact .pure ⟨h1, h2, fun _ => h3⟩
  · intro _
    unfold slot
    rw [if_pos hk, hb.cur]

/-- `bmap` returns the block of the position, or allocates one. -/
theorem wp_bmap {n : Nat} (hb : Busy i s) (hn : n < maxfile) :
    wp E (bmap i n) (BmapEnd i (posSlot n) s) s := by
  unfold bmap posSlot
  refine .ite (fun hlt => ?_) fun hge => .ite (fun hlt => ?_) fun h => ?_
  · rw [if_pos hlt]
    exact wp_bmapAddr hb (by omega)
  · rw [if_neg hge]
    refine (wp_bmapAddr hb (Nat.le_refl _)).bind fun ind s1 hend => ?_
    obtain ⟨hb1, hg1, hind⟩ := hend
    refine .ite (fun _ => .pure ⟨hb1, hg1, fun h => (h rfl).elim⟩) fun h0 => .get_bind ?_
    have haddr : (s1.inode i).addrs ndirect = ind := by
      have h1 := hind h0
      unfold slot at h1
      rw [if_pos (Nat.le_refl _), hb1.cur] at h1
      exact h1
    have hx : n + 1 = ndirect + 1 + (n - ndirect) := by omega
    refine .ite (fun hw => ?_) fun _ => .pure ⟨hb1, hg1, fun _ => ?_⟩
    · refine (wp_balloc hb1.sound.reserved).bind fun r s2 hend => ?_
      rcases hend with ⟨hr, hs⟩ | ⟨hr, ha⟩
      · rw [hr, hs]
        exact .ite (fun _ => .pure ⟨hb1, hg1, fun h => (h rfl).elim⟩) fun h => (h rfl).elim
      · refine .ite (fun h => (hr h).elim) fun _ => .seq (wp_logged ?_)
        obtain ⟨h1, h2, h3⟩ := ha.word hb1 haddr h0 hw rfl rfl
        rw [hx]
        exact .pure ⟨h1, hg1.trans h2, fun _ => h3⟩
    · rw [hb1.cur]
      unfold slot
      rw [if_neg (by omega), haddr, if_neg h0]
      congr 1
  · exact absurd hn (by unfold maxfile; omega)

/-- A position that has a block needs none. -/
theorem wp_bmap_there {n : Nat} (hb : Busy i s) (hn : n < maxfile)
    (h : slot s.blk (cur s i) (posSlot n) ≠ 0) :
    wp E (bmap i n) (fun r s' => r = slot s.blk (cur s i) (posSlot n) ∧ s' = s) s := by
  rw [hb.cur] at h ⊢
  unfold bmap
  unfold posSlot slot at h ⊢
  refine .ite (fun hlt => ?_) fun hge => .ite (fun hlt => ?_) fun h' => ?_
  · rw [if_pos hlt, if_pos (by omega)] at h ⊢
    exact .get_bind (.ite (fun h0 => (h h0).elim) fun _ => .pure ⟨rfl, rfl⟩)
  · rw [if_neg hge, if_neg (by omega)] at h ⊢
    split at h
    · exact (h rfl).elim
    next h0 =>
    rw [if_neg h0]
    have hx : n + 1 - (ndirect + 1) = n - ndirect := by omega
    rw [hx] at h ⊢
    refine wp.bind (M := fun r s' => r = (s.inode i).addrs ndirect ∧ s' = s) ?_ ?_
    · exact .get_bind (.ite (fun h' => (h0 h').elim) fun _ => .pure ⟨rfl, rfl⟩)
    · intro r s' hr
      obtain ⟨hr, hs⟩ := hr
      rw [hr, hs]
      exact .ite (fun h' => (h0 h').elim) fun _ =>
        .get_bind (.ite (fun h' => (h h').elim) fun _ => .pure ⟨rfl, rfl⟩)
  · exact absurd hn (by unfold maxfile; omega)

-- ======== `ilock`, `iupdate`

/-- What is read from a block fits the fields. -/
theorem getDinode_inRange (data : Block) (k : Nat) : InRange (getDinode data k) := by
  have hw := leWord_lt data
  have h0 := hw (k * 16 + 0)
  have h1 := hw (k * 16 + 1)
  refine ⟨?_, ?_, ?_, ?_, hw _, ?_, ?_⟩
  · exact Nat.mod_lt _ (by decide)
  · exact Nat.div_lt_of_lt_mul (by omega)
  · exact Nat.mod_lt _ (by decide)
  · exact Nat.div_lt_of_lt_mul (by omega)
  · intro a
    unfold getDinode
    dsimp only
    split
    · exact hw _
    · decide
  · grind [getDinode]

/-- An inode that is written is read back. -/
theorem getDinode_putDinode (data : Block) {d : Dinode} (h : InRange d)
    (k : Nat) : getDinode (putDinode data k d) k = d := by
  have hword : ∀ j < 16, leWord (putDinode data k d) (k * 16 + j) = d.word j := by
    intro j hj
    apply leWord_setWords _ hj
    have := h.type
    have := h.major
    have := h.minor
    have := h.nlink
    unfold Dinode.word
    split
    · omega
    split
    · omega
    split
    · exact h.size
    · exact h.addrs _
  have h0 : d.word 0 = d.type + 2 ^ 16 * d.major := rfl
  have h1 : d.word 1 = d.minor + 2 ^ 16 * d.nlink := rfl
  have ht := h.type
  have hm := h.minor
  have haddrs : (fun a => if a ≤ ndirect then
      leWord (putDinode data k d) (k * 16 + (a + 3)) else 0) = d.addrs := by
    funext a
    by_cases ha : a ≤ ndirect
    · rw [if_pos ha, hword (a + 3) (by unfold ndirect at ha; omega)]
      unfold Dinode.word
      simp
    · rw [if_neg ha]
      exact (h.none a (by omega)).symm
  unfold getDinode
  dsimp only
  rw [haddrs, hword 0 (by omega), hword 1 (by omega), hword 2 (by omega), h0, h1]
  have e1 : (d.type + 2 ^ 16 * d.major) % 2 ^ 16 = d.type := by omega
  have e2 : (d.type + 2 ^ 16 * d.major) / 2 ^ 16 = d.major := by omega
  have e3 : (d.minor + 2 ^ 16 * d.nlink) % 2 ^ 16 = d.minor := by omega
  have e4 : (d.minor + 2 ^ 16 * d.nlink) / 2 ^ 16 = d.nlink := by omega
  rw [e1, e2, e3, e4]
  rfl

/-- The other inodes of the block stay. -/
theorem getDinode_putDinode_of_ne (data : Block) (d : Dinode)
    (h : j ≠ k) : getDinode (putDinode data k d) j = getDinode data j := by
  have hword : ∀ x < 16, leWord (putDinode data k d) (j * 16 + x) = leWord data (j * 16 + x) :=
    fun x hx => leWord_setWords_of_ne _ _ (by omega)
  have haddrs : (fun a => if a ≤ ndirect then
      leWord (putDinode data k d) (j * 16 + (a + 3)) else 0)
      = fun a => if a ≤ ndirect then leWord data (j * 16 + (a + 3)) else 0 := by
    funext a
    by_cases ha : a ≤ ndirect
    · rw [if_pos ha, if_pos ha, hword (a + 3) (by unfold ndirect at ha; omega)]
    · rw [if_neg ha, if_neg ha]
  unfold getDinode
  dsimp only
  rw [haddrs, hword 0 (by omega), hword 1 (by omega), hword 2 (by omega)]

end Fs

end GemOS
