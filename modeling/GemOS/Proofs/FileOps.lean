/-
`ilock`, `iupdate` and `itrunc`, between `Intact` and `Busy`.

`itrunc` calls `bfree` slot by slot. As the words of the indirect block
stay behind while their blocks are freed, nothing is said of the slots
until the last one is freed: `Emptied` says which blocks have lost their
mark since the beginning.
-/
import GemOS.Proofs.FileBlocks

namespace GemOS

namespace Fs

open Function Prog

variable {s s' s0 s1 : FsState} {i j k b r : Nat} {E : Halt → Prop}

-- ======== between and in an operation

/-- The in-memory inodes change, not what they say. -/
theorem Intact.of_cur (h : Intact s) (hsb : s'.sb = s.sb)
    (hblk : s'.blk = s.blk) (hcur : ∀ j < s.sb.ninodes, cur s' j = cur s j)
    (hsaved : ∀ j < s.sb.ninodes, Saved s' j) : Intact s' := by
  have hused : ∀ b, Used s' b ↔ Used s b := by
    intro b
    unfold Used
    rw [hsb, hblk]
  have hnames : ∀ u b, Names s' u b → Names s u b := by
    intro u b hu
    obtain ⟨hj, hx, hb, hv⟩ := hu
    rw [hsb] at hj
    rw [hblk, hcur _ hj] at hv
    exact ⟨hj, hx, hb, hv⟩
  refine ⟨h.sound.mono hsb hused hnames, ?_, ?_⟩
  · grind [h.filled]
  · grind

theorem Intact.busy (h : Intact s) (hi : i < s.sb.ninodes)
    (hv : (s.inode i).valid = true) : Busy i s where
  lt := hi
  valid := hv
  range := by
    rw [(h.saved i hi).same hv]
    exact getDinode_inRange ..
  sound := h.sound
  filled := fun j hj _ => h.filled j hj
  saved := fun j hj _ => h.saved j hj

theorem Busy.intact (h : Busy i s) (hdisk : (s.inode i).toDinode = onDisk s i)
    (hf : Filled s.blk (Fs.cur s i)) (ht : (s.inode i).type ≠ 0) : Intact s where
  sound := h.sound
  filled := fun j hj => by
    by_cases hne : j = i
    · rw [hne]; exact hf
    · exact h.filled j hj hne
  saved := fun j hj => by
    by_cases hne : j = i
    · rw [hne]; exact ⟨fun _ => hdisk, fun _ => ht⟩
    · exact h.saved j hj hne

/-- What `ilock` of inode `i` leaves. -/
structure Locked (i : Nat) (s s' : FsState) : Prop where
  intact : Intact s'
  valid : (s'.inode i).valid = true
  sb : s'.sb = s.sb
  blk : s'.blk = s.blk
  cur : ∀ j, cur s' j = cur s j

/-- A copy that says what the disk says. -/
theorem Intact.load (h : Intact s) {ip : Inode}
    (hv : ¬ (s.inode i).valid = true) (hip : ip.toDinode = onDisk s i)
    (hipv : ip.valid = true) (ht : ip.type ≠ 0) :
    Locked i s { s with inode := update s.inode i ip } := by
  have hsame : ∀ j, Fs.cur { s with
      inode := update s.inode i ip } j = Fs.cur s j := by
    grind [Fs.cur, onDisk, update_apply]
  refine ⟨h.of_cur rfl rfl (fun j _ => hsame j) ?_, ?_, rfl, rfl, hsame⟩
  · intro j hj
    by_cases hne : j = i
    · subst hne
      refine ⟨fun _ => ?_, fun _ => ?_⟩
      · simp only [update_self, hip]
        rfl
      · simpa using ht
    · have hold := h.saved j hj
      refine ⟨?_, ?_⟩
      · simpa [onDisk, hne] using hold.same
      · simpa [hne] using hold.typed
  · simpa using hipv

/-- `ilock` reads the inode if it is not valid. -/
theorem wp_ilock (h : Intact s) (i : Nat) :
    wp (fun e => e = .panic "ilock: no type" ∧ (cur s i).type = 0)
      (ilock i) (fun _ s' => Locked i s s') s := by
  unfold ilock
  refine .get_bind (.ite (fun hv => .pure ⟨h, hv, rfl, rfl, fun _ => rfl⟩) fun hv => ?_)
  have hcur : cur s i = onDisk s i := if_neg hv
  refine .seq (wp_setInode ?_)
  refine .ite (fun ht => .fault ⟨rfl, by rw [hcur]; exact ht⟩) fun ht => ?_
  exact .pure (h.load hv rfl rfl ht)

-- ======== `iupdate`

/-- The inode in memory is now on the disk as well. -/
structure Synced (i : Nat) (s s' : FsState) : Prop where
  busy : Busy i s'
  elsewhere : Elsewhere i s s'
  inode : s'.inode = s.inode
  disk : (s'.inode i).toDinode = onDisk s' i
  slot : ∀ x, slot s'.blk (cur s' i) x = slot s.blk (cur s i) x
  used : ∀ b, Used s' b ↔ Used s b

/-- Inode `i` of the disk overwritten. -/
def withDinode (s : FsState) (i : Nat) (d : Dinode) : FsState :=
  let data := putDinode (s.blk (s.sb.iblock i)) (i % ipb) d
  { s with blk := update s.blk (s.sb.iblock i) data }

theorem onDisk_withDinode_self {d : Dinode} (h : InRange d) (i : Nat) :
    onDisk (withDinode s i d) i = d := by
  unfold onDisk withDinode
  dsimp only
  rw [update_self]
  exact getDinode_putDinode _ h _

theorem onDisk_withDinode_of_ne (d : Dinode) (h : j ≠ i) :
    onDisk (withDinode s i d) j = onDisk s j := by
  unfold onDisk withDinode
  dsimp only
  by_cases hblock : s.sb.iblock j = s.sb.iblock i
  · rw [hblock, update_self]
    apply getDinode_putDinode_of_ne
    unfold Superblock.iblock ipb at hblock
    unfold ipb
    omega
  · rw [update_of_ne hblock]

/-- The blocks from the bitmap on are not touched. -/
theorem blk_withDinode (hl : Layout s.sb) (hi : i < s.sb.ninodes)
    (d : Dinode) (hb : s.sb.bmapstart ≤ b) : (withDinode s i d).blk b = s.blk b := by
  have := hl.iblock_lt hi
  exact update_of_ne (by omega) ..

theorem used_withDinode (hl : Layout s.sb) (hi : i < s.sb.ninodes)
    (d : Dinode) (b : Nat) : Used (withDinode s i d) b ↔ Used s b := by
  unfold Used
  rw [show (withDinode s i d).sb = s.sb from rfl, blk_withDinode hl hi d (bmapstart_le_bblock ..)]

theorem Sound.indirect_withDinode (h : Sound s) (hi : i < s.sb.ninodes)
    (d : Dinode) (hj : j < s.sb.ninodes) (h0 : (cur s j).addrs ndirect ≠ 0) :
    (withDinode s i d).blk ((cur s j).addrs ndirect) = s.blk ((cur s j).addrs ndirect) := by
  have hd := (h.ledger.inPool _ _ (names_indirect hj h0)).1
  have := bmapstart_lt_datastart s.sb
  exact blk_withDinode h.layout hi d (by omega)

theorem Sound.elsewhere_withDinode (h : Sound s) (hi : i < s.sb.ninodes)
    (d : Dinode) : Elsewhere i s (withDinode s i d) where
  sb := rfl
  inode := fun _ _ => rfl
  disk := fun _ _ hne => onDisk_withDinode_of_ne d hne
  indirect := fun _ hj _ h0 => h.indirect_withDinode hi d hj h0

/-- `iupdate` writes back what the cache has. -/
theorem wp_iupdate (h : Busy i s) : wp E (iupdate i) (fun _ s' => Synced i s s') s := by
  refine .get_bind (wp_logged ?_)
  show Synced i s (withDinode s i (s.inode i).toDinode)
  generalize hs' : withDinode s i (s.inode i).toDinode = s'
  have he : Elsewhere i s s' := by
    rw [← hs']
    exact h.sound.elsewhere_withDinode h.lt _
  have hino : s'.inode = s.inode := by rw [← hs']; rfl
  have hcur : cur s' i = cur s i := by
    rw [h.cur, cur_of_valid (by rw [hino]; exact h.valid), hino]
  have hslot : ∀ x, slot s'.blk (cur s' i) x = slot s.blk (cur s i) x := by
    intro x
    rw [hcur, ← hs']
    exact slot_congr (h.sound.indirect_withDinode h.lt _ h.lt) x
  have hused : ∀ b, Used s' b ↔ Used s b := by
    rw [← hs']
    exact used_withDinode h.sound.layout h.lt _
  refine ⟨he.busy h ?_ ?_ (h.sound.mono he.sb hused (he.names_of_slot hslot)), he, hino, ?_,
    hslot, hused⟩
  · rw [hino]; exact h.valid
  · rw [hino]; exact h.range
  · rw [hino, ← hs', onDisk_withDinode_self h.range]

-- ======== `itrunc`

/-- Since `s`, the blocks of the slots `D` of inode `i` have been freed. -/
structure Emptied (i : Nat) (D : Nat → Prop) (s s' : FsState) : Prop where
  sb : s'.sb = s.sb
  inode : ∀ j, j ≠ i → s'.inode j = s.inode j
  used : ∀ b, Used s' b ↔ Used s b ∧ ¬ ∃ x, D x ∧ Names s (i, x) b
  frame : ∀ b, OffMap s.sb b → s'.blk b = s.blk b

namespace Emptied

variable {D D' : Nat → Prop} {x : Nat}

theorem refl (i : Nat) (s : FsState) : Emptied i (fun _ => False) s s where
  sb := rfl
  inode := fun _ _ => rfl
  used := fun b => by simp
  frame := fun _ _ => rfl

/-- Slots that name nothing may be counted as freed. -/
theorem widen (h : Emptied i D s0 s) (hsub : ∀ x, D x → D' x)
    (hD : ∀ x, D' x → x < nslots → slot s0.blk (cur s0 i) x ≠ 0 → D x) : Emptied i D' s0 s := by
  refine { h with used := fun b => (h.used b).trans ?_ }
  refine and_congr_right fun _ => not_congr ⟨?_, ?_⟩
  · grind
  · intro hx
    obtain ⟨x, hx, hn⟩ := hx
    refine ⟨x, hD x hx hn.2.1 ?_, hn⟩
    rw [hn.2.2.2]
    exact hn.2.2.1

theorem setInode (h : Emptied i D s0 s) (ip : Inode) :
    Emptied i D s0 { s with inode := update s.inode i ip } :=
  ⟨h.sb, fun j hne => (update_of_ne hne ..).trans (h.inode j hne), h.used, h.frame⟩

/-- `bfree` does not panic on the block of a slot not yet freed. -/
theorem free (h : Emptied i D s0 s) (hs : Sound s0) (hn : Names s0 (i, x) b) (hx : ¬ D x) :
    wp E (bfree b) (fun _ s' => Emptied i (fun y => D y ∨ y = x) s0 s' ∧ s'.inode = s.inode) s := by
  have hu : Used s b := by
    refine (h.used b).mpr ⟨hs.ledger.marked _ _ hn, ?_⟩
    intro hy
    obtain ⟨y, hy, hny⟩ := hy
    have := (Prod.mk.inj (hs.ledger.excl hny hn)).2
    exact hx (this ▸ hy)
  refine (wp_bfree hu).mono fun _ s' hf => ⟨⟨?_, ?_, ?_, ?_⟩, hf.inode⟩
  · exact hf.sb.trans h.sb
  · intro j hne
    rw [hf.inode]
    exact h.inode j hne
  · intro z
    rw [hf.used, h.used, and_assoc]
    refine and_congr_right fun _ => ⟨?_, ?_⟩
    · intro hz hy
      obtain ⟨y, hy, hny⟩ := hy
      rcases hy with hd | hyx
      · exact hz.1 ⟨y, hd, hny⟩
      · rw [hyx] at hny
        exact hz.2 (hny.2.2.2.symm.trans hn.2.2.2)
    · grind
  · intro z hz
    rw [hf.frame z (h.sb ▸ hz)]
    exact h.frame z hz

theorem elsewhere (h : Emptied i D s0 s) (hs : Sound s0) : Elsewhere i s0 s where
  sb := h.sb
  inode := h.inode
  disk := fun j hj _ => by
    unfold onDisk
    rw [h.sb, h.frame _ (.inl (hs.layout.iblock_lt hj))]
  indirect := fun j hj _ h0 => h.frame _ (hs.ledger.inPool _ _ (names_indirect hj h0)).offMap

/-- All slots have been freed and the inode has no addresses left. -/
theorem busy (h : Emptied i (fun _ => True) s0 s) (hb : Busy i s0)
    (hvalid : (s.inode i).valid = true) (hrange : InRange (s.inode i).toDinode)
    (haddrs : ∀ k, (s.inode i).addrs k = 0) : Busy i s := by
  have he := h.elsewhere hb.sound
  refine he.busy hb hvalid hrange ⟨?_, ?_, ?_⟩
  · rw [h.sb]; exact hb.sound.layout
  · intro b hlt
    rw [h.sb] at hlt
    refine (h.used b).mpr ⟨hb.sound.reserved b hlt, ?_⟩
    intro hx
    obtain ⟨x, -, hn⟩ := hx
    have := (hb.sound.ledger.inPool _ _ hn).1
    omega
  · rw [h.sb]
    refine hb.sound.ledger.drop (fun u => u.1 = i) ?_ ?_
    · grind [h.used]
    · intro u b hu
      have hne : u.1 ≠ i := by
        intro hi
        apply hu.2.2.1
        rw [← hu.2.2.2, hi, cur_of_valid hvalid]
        unfold slot
        simp only [haddrs, if_true]
        split <;> rfl
      exact ⟨(he.names hne).mp hu, hne⟩

end Emptied

def Inode.withAddrs (ip : Inode) (a : Nat → Nat) : Inode :=
  { ip with addrs := a }

/-- The direct blocks, by induction on those left. -/
theorem wp_itruncDirect (hb : Busy i s0) (ks : List Nat) :
    ∀ (D : Nat → Prop) (s : FsState), (∀ k ∈ ks, k < ndirect) → ks.Nodup →
      (∀ k ∈ ks, ¬ D k ∧ (s.inode i).addrs k = (s0.inode i).addrs k) → Emptied i D s0 s →
      wp E (itruncDirect i ks) (fun _ s' =>
        Emptied i (fun y => D y ∨ y ∈ ks) s0 s' ∧ s'.inode i = (s.inode i).withAddrs fun k =>
              if k ∈ ks then 0 else (s.inode i).addrs k) s := by
  induction ks with
  | nil =>
    intro D s _ _ _ h
    refine .pure ⟨?_, ?_⟩
    · exact h.widen (fun _ => .inl) fun x hx _ _ => by simpa using hx
    · simp [Inode.withAddrs]
  | cons k ks ih =>
    intro D s hlt hnd hpend h
    obtain ⟨hk, hnd⟩ := List.nodup_cons.mp hnd
    obtain ⟨hD, hsame⟩ := hpend k List.mem_cons_self
    have hkn := hlt k List.mem_cons_self
    have hslot : slot s0.blk (cur s0 i) k = (s0.inode i).addrs k := by
      unfold slot
      rw [if_pos (by omega), hb.cur]
    -- what is left to do after slot `k`, wherever that led
    have hrest : ∀ s1, Emptied i (fun y => D y ∨ y = k) s0 s1 → s1.inode i = (s.inode i).withAddrs
          (update (s.inode i).addrs k 0) →
        wp E (itruncDirect i ks) (fun _ s' =>
          Emptied i (fun y => D y ∨ y ∈ k :: ks) s0 s' ∧ s'.inode i = (s.inode i).withAddrs fun x =>
              if x ∈ k :: ks then 0 else (s.inode i).addrs x) s1 := by
      intro s1 h1 hino
      have hpend1 : ∀ x ∈ ks, ¬ (D x ∨ x = k) ∧ (s1.inode i).addrs x = (s0.inode i).addrs x := by
        intro x hx
        have hxk : x ≠ k := fun hxk => hk (hxk ▸ hx)
        obtain ⟨hDx, hx0⟩ := hpend x (List.mem_cons_of_mem _ hx)
        refine ⟨fun hd => hd.elim hDx hxk, ?_⟩
        rw [hino]
        exact (update_of_ne hxk ..).trans hx0
      refine (ih _ s1 (fun x hx => hlt x (List.mem_cons_of_mem _ hx)) hnd
        hpend1 h1).mono fun _ s' hend => ⟨?_, ?_⟩
      · grind [List.mem_cons_self, List.mem_cons_of_mem]
      · rw [hend.2, hino]
        show (s.inode i).withAddrs _ = _
        congr 1
        funext x
        by_cases hxk : x = k
        · simp [hxk, Inode.withAddrs]
        · simp [hxk, Inode.withAddrs]
    unfold itruncDirect
    refine .get_bind (.ite (fun h0 => ?_) fun h0 => ?_)
    · apply hrest s
      · grind [h.widen]
      · rw [← h0, update_eq_self]
        rfl
    · have hn : Names s0 (i, k) ((s.inode i).addrs k) :=
        ⟨hb.lt, show k < nslots by unfold nslots; omega, h0, by rw [hslot, hsame]⟩
      refine (h.free hb.sound hn hD).bind fun _ s1 hfree => ?_
      refine .seq (wp_setInode ?_)
      apply hrest
      · exact hfree.1.setInode _
      · rw [hfree.2]
        exact update_self ..

/-- The blocks of the indirect block. -/
theorem wp_itruncIndirect (hb : Busy i s0) {ind : Nat}
    (hind : (s0.inode i).addrs ndirect = ind) (h0 : ind ≠ 0) (js : List Nat) :
    ∀ (D : Nat → Prop) (s : FsState), (∀ j ∈ js, j < nindirect) →
      js.Nodup → (∀ j ∈ js, ¬ D (ndirect + 1 + j)) → Emptied i D s0 s →
      wp E (itruncIndirect ind js) (fun _ s' =>
        Emptied i (fun y => D y ∨ ∃ j ∈ js, y = ndirect + 1 + j) s0 s' ∧ s'.inode = s.inode) s := by
  have hcur := hb.cur
  have hoff : OffMap s0.sb ind := by
    have hn := names_indirect hb.lt (by rw [hcur, hind]; exact h0)
    rw [hcur, hind] at hn
    exact (hb.sound.ledger.inPool _ _ hn).offMap
  have hslot : ∀ j, slot s0.blk (cur s0 i) (ndirect + 1 + j) = leWord (s0.blk ind) j := by
    intro j
    unfold slot
    rw [if_neg (by omega), hcur, hind, if_neg h0, Nat.add_sub_cancel_left]
  induction js with
  | nil =>
    intro D s _ _ _ h
    exact .pure ⟨h.widen (fun _ => .inl) fun x hx _ _ => by simpa using hx, rfl⟩
  | cons j js ih =>
    intro D s hlt hnd hpend h
    obtain ⟨hj, hnd⟩ := List.nodup_cons.mp hnd
    have hword : leWord (s.blk ind) j = leWord (s0.blk ind) j := by
      rw [h.frame ind hoff]
    have hrest : ∀ s1, Emptied i (fun y => D y ∨ y = ndirect + 1 + j) s0 s1 → s1.inode = s.inode →
        wp E (itruncIndirect ind js) (fun _ s' =>
          Emptied i (fun y => D y ∨ ∃ x ∈ j :: js, y = ndirect + 1 + x)
            s0 s' ∧ s'.inode = s.inode) s1 := by
      intro s1 h1 hino
      have hpend1 : ∀ x ∈ js, ¬ (D (ndirect + 1 + x) ∨ ndirect + 1 + x = ndirect + 1 + j) := by
        grind [List.mem_cons_of_mem]
      refine (ih _ s1 (fun x hx => hlt x (List.mem_cons_of_mem _ hx)) hnd
        hpend1 h1).mono fun _ s' hend => ⟨?_, hend.2.trans hino⟩
      refine hend.1.widen ?_ fun y hy _ _ => ?_
      · grind [List.mem_cons_self, List.mem_cons_of_mem]
      · grind
    unfold itruncIndirect
    refine .get_bind (.ite (fun hw => ?_) fun hw => ?_)
    · grind [h.widen]
    · have hjn := hlt j List.mem_cons_self
      have hn : Names s0 (i, ndirect + 1 + j) (leWord (s.blk ind) j) :=
        ⟨hb.lt, show ndirect + 1 + j < nslots by unfold nslots; omega, hw, by rw [hslot, hword]⟩
      refine (h.free hb.sound hn (hpend j List.mem_cons_self)).bind fun _ s1 hfree => ?_
      exact hrest s1 hfree.1 hfree.2

/-- What `itrunc` leaves. -/
structure Truncated (i : Nat) (s s' : FsState) : Prop where
  busy : Busy i s'
  disk : (s'.inode i).toDinode = onDisk s' i
  sb : s'.sb = s.sb
  inode : s'.inode i = { s.inode i with size := 0, addrs := fun _ => 0 }
  used : ∀ b, Used s' b ↔ Used s b ∧ ¬ ∃ x, Names s (i, x) b

/-- The end of `itrunc`, once every slot has been freed. -/
theorem wp_itruncEnd (hb : Busy i s0) (h : Emptied i (fun _ => True) s0 s)
    (hs : s.inode i = (s0.inode i).withAddrs fun _ => 0) :
    wp E (do setInode i (fun ip => { ip with size := 0 }); iupdate i)
      (fun _ s' => Truncated i s0 s') s := by
  refine .seq (wp_setInode ?_)
  have h1 := h.setInode { s.inode i with size := 0 }
  generalize hs1 : ({ s with
    inode := update s.inode i { s.inode i with size := 0 } } : FsState) = s1 at h1
  have hino : s1.inode i = { s0.inode i with size := 0, addrs := fun _ => 0 } := by
    rw [← hs1]
    exact (update_self ..).trans (by rw [hs]; rfl)
  have hrange : InRange (s1.inode i).toDinode := by
    rw [hino]
    exact { hb.range with
      size := show 0 < 2 ^ 32 by decide
      addrs := fun _ => show 0 < 2 ^ 32 by decide
      none := fun _ _ => rfl }
  have hbusy : Busy i s1 := by
    refine h1.busy hb ?_ hrange ?_
    · rw [hino]; exact hb.valid
    · intro k; rw [hino]
  refine (wp_iupdate hbusy).mono fun _ s' hsync => ?_
  refine ⟨hsync.busy, hsync.disk, hsync.elsewhere.sb.trans h1.sb, ?_, ?_⟩
  · rw [hsync.inode, hino]
  · intro b
    rw [hsync.used, h1.used]
    simp only [true_and]

/-- `itrunc` frees every block of the file once. -/
theorem wp_itrunc (hb : Busy i s) : wp E (itrunc i) (fun _ s' => Truncated i s s') s := by
  unfold itrunc
  have hdirect := wp_itruncDirect (E := E) hb (List.range ndirect)
    (fun _ => False) s (fun k hk => List.mem_range.mp hk) List.nodup_range
    (fun _ _ => ⟨id, rfl⟩) (.refl i s)
  refine hdirect.bind fun _ s1 h => .get_bind ?_
  obtain ⟨h1, hino1⟩ := h
  have hind : (s1.inode i).addrs ndirect = (s.inode i).addrs ndirect := by
    rw [hino1]
    show (if ndirect ∈ List.range ndirect then 0 else _) = _
    exact if_neg List.not_mem_range_self
  -- no address is left but that of the indirect block
  have haddrs : ∀ a, a ≠ ndirect → (s1.inode i).addrs a = 0 := by
    intro a ha
    rw [hino1]
    show (if a ∈ List.range ndirect then 0 else _) = 0
    split
    · rfl
    · grind [hb.range.none]
  have hino : s1.inode i = (s.inode i).withAddrs (s1.inode i).addrs := by
    rw [hino1]
    rfl
  have hcur := hb.cur
  refine .ite (fun h0 => ?_) fun h0 => ?_
  · refine wp_itruncEnd hb (h1.widen (fun _ _ => trivial) ?_) ?_
    · intro x _ _ hx0
      refine .inr (List.mem_range.mpr (Nat.lt_of_not_le fun hx => hx0 ?_))
      rw [hind] at h0
      unfold slot
      rw [hcur]
      split
      · grind [Nat.le_antisymm]
      · rfl
    · rw [hino]
      congr 1
      funext a
      by_cases ha : a = ndirect
      · rw [ha]; exact h0
      · exact haddrs a ha
  · rw [hind] at h0 ⊢
    have hloop := wp_itruncIndirect (E := E) hb rfl h0
      (List.range nindirect) _ s1 (fun j hj => List.mem_range.mp hj)
      List.nodup_range (fun j _ hd => by
        have := hd.elim id fun hd => absurd (List.mem_range.mp hd) (by omega)
        exact this) h1
    refine hloop.bind fun _ s2 h => ?_
    obtain ⟨h2, hino2⟩ := h
    have hn := names_indirect hb.lt (by rw [hcur]; exact h0)
    rw [hcur] at hn
    refine (h2.free hb.sound hn ?_).bind fun _ s3 h => ?_
    · grind
    obtain ⟨h3, hino3⟩ := h
    refine .seq (wp_setInode (wp_itruncEnd hb ((h3.setInode _).widen
      (fun _ _ => trivial) fun x _ hxs _ => ?_) ?_))
    · by_cases hx : x < ndirect
      · exact .inl (.inl (.inr (List.mem_range.mpr hx)))
      by_cases hxn : x = ndirect
      · exact .inr hxn
      refine .inl (.inr ⟨x - (ndirect + 1), ?_, by omega⟩)
      rw [List.mem_range]
      unfold nslots at hxs
      omega
    · refine (update_self ..).trans ?_
      rw [hino3, hino2, hino]
      show (s.inode i).withAddrs _ = _
      congr 1
      funext a
      by_cases ha : a = ndirect
      · rw [ha, update_self]
      · rw [update_of_ne ha]
        exact haddrs a ha

end Fs

end GemOS
