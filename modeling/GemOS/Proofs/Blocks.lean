/-
Who owns a disk block (`fs.c`).

An inode names blocks by its slots: the addresses of the inode, the
indirect block's among them, and the words of the indirect block. `Intact`
says that every block named is a data block, is marked in the bitmap and
has one slot that names it, that every position below the size of a file
has a block, and that the in-memory inodes are those of the disk.

While an operation works on inode `i` the last does not hold of `i`:
`Busy i` is `Intact` without it. `ilock` leads from the one to the other
and `iupdate` back. What `balloc` and `bfree` do is said once, as relations
`Allocated` and `Freed` between the states before and after; a block that
`balloc` returns is then put into a slot, and `bfree` is called on a slot
about to be cleared, which are the rules `Ledger.gain` and `Ledger.drop`.
-/
import GemOS.Kernel.Fs
import GemOS.Lib.Exclusive
import GemOS.Lib.Wp

namespace GemOS

namespace Fs

open Function Prog

variable {s s' s1 : FsState} {i j k b r : Nat}

-- ======== vocabulary

/-- The first block after the bitmap. -/
def Superblock.datastart (sb : Superblock) : Nat :=
  sb.bmapstart + sb.size / bpb + 1

/-- The regions of the disk follow each other, and block numbers are
`int`s. -/
structure Layout (sb : Superblock) : Prop where
  inodes : sb.inodestart + sb.ninodes / ipb + 1 ≤ sb.bmapstart
  data : sb.datastart ≤ sb.size
  bound : sb.size ≤ 2 ^ 31

/-- Block `b` is marked in the bitmap. -/
def Used (s : FsState) (b : Nat) : Prop :=
  b < s.sb.size ∧ bitAt (s.blk (s.sb.bblock b)) (b % bpb) = true

instance (s : FsState) (b : Nat) : Decidable (Used s b) :=
  inferInstanceAs (Decidable (_ ∧ _))

/-- Data blocks. -/
def Data (sb : Superblock) (b : Nat) : Prop :=
  sb.datastart ≤ b ∧ b < sb.size

/-- The inode as the disk has it. -/
def onDisk (s : FsState) (i : Nat) : Dinode :=
  getDinode (s.blk (s.sb.iblock i)) (i % ipb)

/-- The inode as it stands. -/
def cur (s : FsState) (i : Nat) : Dinode :=
  if (s.inode i).valid then (s.inode i).toDinode else onDisk s i

/-- Slots `0..NDIRECT` are the addresses of the inode, the others the
words of its indirect block. -/
def slot (blk : Nat → Block) (d : Dinode) (k : Nat) : Nat :=
  if k ≤ ndirect then d.addrs k
  else if d.addrs ndirect = 0 then 0
  else leWord (blk (d.addrs ndirect)) (k - (ndirect + 1))

/-- How many slots an inode has. -/
abbrev nslots : Nat := ndirect + 1 + nindirect

/-- The slot of position `n` of the file. -/
def posSlot (n : Nat) : Nat := if n < ndirect then n else n + 1

/-- Slot `u.2` of inode `u.1` names block `b`. -/
def Names (s : FsState) (u : Nat × Nat) (b : Nat) : Prop :=
  u.1 < s.sb.ninodes ∧ u.2 < nslots ∧ b ≠ 0 ∧ slot s.blk (cur s u.1) u.2 = b

/-- No position below the size is a hole. -/
structure Filled (blk : Nat → Block) (d : Dinode) : Prop where
  bound : d.size ≤ maxfile * bsize
  there : ∀ n, n * bsize < d.size → slot blk d (posSlot n) ≠ 0

/-- The blocks of the layout are marked, and so are the data blocks that
a slot names, each named by one. -/
structure Sound (s : FsState) : Prop where
  layout : Layout s.sb
  reserved : ∀ b < s.sb.datastart, Used s b
  ledger : Ledger (Used s) (Data s.sb) (Names s)

/-- An in-memory inode that agrees with the disk. -/
structure Saved (s : FsState) (j : Nat) : Prop where
  same : (s.inode j).valid = true → (s.inode j).toDinode = onDisk s j
  typed : (s.inode j).valid = true → (s.inode j).type ≠ 0

structure Intact (s : FsState) : Prop where
  sound : Sound s
  filled : ∀ j < s.sb.ninodes, Filled s.blk (cur s j)
  saved : ∀ j < s.sb.ninodes, Saved s j

/-- The fields hold what fits into them. -/
structure InRange (d : Dinode) : Prop where
  type : d.type < 2 ^ 16
  major : d.major < 2 ^ 16
  minor : d.minor < 2 ^ 16
  nlink : d.nlink < 2 ^ 16
  size : d.size < 2 ^ 32
  addrs : ∀ a, d.addrs a < 2 ^ 32
  none : ∀ a, ndirect < a → d.addrs a = 0

/-- Inode `i` is being worked on. -/
structure Busy (i : Nat) (s : FsState) : Prop where
  lt : i < s.sb.ninodes
  valid : (s.inode i).valid = true
  range : InRange (s.inode i).toDinode
  sound : Sound s
  filled : ∀ j < s.sb.ninodes, j ≠ i → Filled s.blk (cur s j)
  saved : ∀ j < s.sb.ninodes, j ≠ i → Saved s j

/-- Slots that name less, and the same blocks marked. -/
theorem Sound.mono (h : Sound s) (hsb : s'.sb = s.sb) (hused : ∀ b, Used s' b ↔ Used s b)
    (hnames : ∀ u b, Names s' u b → Names s u b) : Sound s' where
  layout := by rw [hsb]; exact h.layout
  reserved := fun b hb => by
    rw [hsb] at hb
    exact (hused b).mpr (h.reserved b hb)
  ledger := by
    rw [hsb]
    exact h.ledger.mono (fun b => (hused b).mpr) hnames

-- ======== regions

theorem Layout.iblock_lt (h : Layout s.sb) (hi : i < s.sb.ninodes) :
    s.sb.iblock i < s.sb.bmapstart := by
  have := h.inodes
  have : i / ipb ≤ s.sb.ninodes / ipb := Nat.div_le_div_right (by omega)
  unfold Superblock.iblock
  omega

theorem bmapstart_le_bblock (sb : Superblock) (b : Nat) :
    sb.bmapstart ≤ sb.bblock b := Nat.le_add_left ..

theorem bblock_lt_datastart (h : b < s.sb.size) : s.sb.bblock b < s.sb.datastart := by
  have : b / bpb ≤ s.sb.size / bpb := Nat.div_le_div_right (by omega)
  unfold Superblock.bblock Superblock.datastart
  omega

/-- Where neither `balloc` nor `bfree` writes, except for the block they
are about. -/
def OffMap (sb : Superblock) (b : Nat) : Prop :=
  b < sb.bmapstart ∨ sb.datastart ≤ b

theorem OffMap.ne_bblock (h : OffMap s.sb b) (hj : j < s.sb.size) : b ≠ s.sb.bblock j := by
  have := bmapstart_le_bblock s.sb j
  have := bblock_lt_datastart hj
  rcases h with h | h <;> omega

theorem bmapstart_lt_datastart (sb : Superblock) :
    sb.bmapstart < sb.datastart := Nat.lt_succ_of_le (Nat.le_add_right ..)

theorem Data.ne_zero (h : Data s.sb b) : b ≠ 0 := by
  have := h.1
  have := bmapstart_lt_datastart s.sb
  omega

theorem Data.offMap (h : Data s.sb b) : OffMap s.sb b := .inr h.1

/-- Different blocks have different bits. -/
theorem bit_ne {sb : Superblock} (h : j ≠ k)
    (hblock : sb.bblock j = sb.bblock k) : j % bpb ≠ k % bpb := by
  unfold Superblock.bblock at hblock
  intro hmod
  have h1 := Nat.div_add_mod j bpb
  have h2 := Nat.div_add_mod k bpb
  have : j / bpb = k / bpb := by omega
  rw [this, hmod] at h1
  omega

-- ======== stores

variable {E : Halt → Prop} {Q : Unit → FsState → Prop} {f : Block → Block}

theorem wp_stored (h : Q () { s with blk := update s.blk b (f (s.blk b)) }) :
    wp E (stored b f) Q s := h

theorem wp_logged (h : Q () { s with blk := update s.blk b (f (s.blk b)) }) :
    wp E (logged b f) Q s := h

theorem wp_setInode {f : Inode → Inode} (h : Q () { s with
      inode := update s.inode i (f (s.inode i)) }) :
    wp E (setInode i f) Q s := h

-- ======== `balloc`

/-- `balloc` has returned block `r`. -/
structure Allocated (s : FsState) (r : Nat) (s' : FsState) : Prop where
  fresh : ¬ Used s r
  data : Data s.sb r
  sb : s'.sb = s.sb
  inode : s'.inode = s.inode
  used : ∀ b, Used s' b ↔ Used s b ∨ b = r
  zero : s'.blk r = fun _ => 0
  frame : ∀ b, OffMap s.sb b → b ≠ r → s'.blk b = s.blk b

/-- The bit of `r` is set and the block is zeroed. -/
theorem Allocated.of_clear (hres : ∀ b < s.sb.datastart, Used s b) (hlt : r < s.sb.size)
    (hclear : bitAt (s.blk (s.sb.bblock r)) (r % bpb) = false) : Allocated s r { s with
      blk := update (update s.blk (s.sb.bblock r)
          (setBit (s.blk (s.sb.bblock r)) (r % bpb))) r fun _ => 0 } := by
  have hfresh : ¬ Used s r := by
    intro hu
    rw [hu.2] at hclear
    cases hclear
  have hdata : s.sb.datastart ≤ r := Nat.le_of_not_lt fun h => hfresh (hres r h)
  -- the bitmap block of a block of the disk is not the block zeroed
  have hmap : ∀ b < s.sb.size, s.sb.bblock b ≠ r := by
    intro b hb
    have := bblock_lt_datastart hb
    omega
  refine ⟨hfresh, ⟨hdata, hlt⟩, rfl, rfl, ?_, update_self .., ?_⟩
  · grind [Used, update_apply, bitAt_setBit_self, bitAt_setBit_of_ne, bit_ne]
  · intro b hoff hne
    dsimp only
    rw [update_of_ne hne, update_of_ne (hoff.ne_bblock hlt)]

/-- `balloc` returns 0 and changes nothing, or allocates. -/
def AllocEnd (s : FsState) (r : Nat) (s' : FsState) : Prop :=
  (r = 0 ∧ s' = s) ∨ (r ≠ 0 ∧ Allocated s r s')

/-- The scan, one bitmap block after another. -/
theorem wp_ballocLoop (hres : ∀ b < s.sb.datastart, Used s b) (n : Nat) :
    ∀ b, b % bpb = 0 → wp E (ballocLoop n b) (AllocEnd s) s := by
  induction n with
  | zero => exact fun _ _ => .inl ⟨rfl, rfl⟩
  | succ n ih =>
    intro b hb
    unfold ballocLoop
    refine .get_bind (.ite (fun hlt => ?_) fun _ => .inl ⟨rfl, rfl⟩)
    split
    · next bi hfind =>
      have hmem := List.mem_range.mp (List.mem_of_find?_eq_some hfind)
      have hclear := List.find?_some hfind
      have hdiv : (b + bi) / bpb = b / bpb := by unfold bpb at *; omega
      have hblock : s.sb.bblock (b + bi) = s.sb.bblock b := by
        unfold Superblock.bblock
        rw [hdiv]
      have hmod : (b + bi) % bpb = bi := by unfold bpb at *; omega
      have halloc := Allocated.of_clear (r := b + bi) hres (by omega)
        (by rw [hblock, hmod]; simpa using hclear)
      rw [hblock, hmod] at halloc
      exact .seq (wp_logged (.seq (wp_logged (.pure (.inr ⟨halloc.data.ne_zero, halloc⟩)))))
    · exact ih (b + bpb) (by rw [Nat.add_mod_right]; exact hb)

/-- `balloc` marks a block that was clear, or finds none. -/
theorem wp_balloc (hres : ∀ b < s.sb.datastart, Used s b) : wp E balloc (AllocEnd s) s :=
  .get_bind (wp_ballocLoop hres _ 0 rfl)

-- ======== `bfree`

/-- `bfree b` has returned. -/
structure Freed (s : FsState) (b : Nat) (s' : FsState) : Prop where
  sb : s'.sb = s.sb
  inode : s'.inode = s.inode
  used : ∀ x, Used s' x ↔ Used s x ∧ x ≠ b
  frame : ∀ x, OffMap s.sb x → s'.blk x = s.blk x

/-- `bfree` does not panic for a block in use. -/
theorem wp_bfree (hu : Used s b) : wp E (bfree b) (fun _ s' => Freed s b s') s := by
  unfold bfree
  refine .get_bind (.ite (fun _ => ?_) fun hn => (hn hu.2).elim)
  refine wp_logged ⟨rfl, rfl, ?_, ?_⟩
  · grind [Used, update_apply, bitAt_clearBit_self, bitAt_clearBit_of_ne, bit_ne]
  · intro x hoff
    exact update_of_ne (hoff.ne_bblock hu.1) ..

-- ======== frames

theorem slot_congr {blk blk' : Nat → Block} {d : Dinode} (h : d.addrs ndirect ≠ 0 →
      blk' (d.addrs ndirect) = blk (d.addrs ndirect)) (k : Nat) :
    slot blk' d k = slot blk d k := by
  unfold slot
  by_cases h0 : d.addrs ndirect = 0
  · simp only [h0, if_true]
  · rw [h h0]

theorem cur_of_valid (h : (s.inode i).valid = true) : cur s i = (s.inode i).toDinode := if_pos h

theorem Saved.cur (h : Saved s j) : cur s j = onDisk s j := by
  unfold Fs.cur
  by_cases hv : (s.inode j).valid = true
  · rw [if_pos hv, h.same hv]
  · rw [if_neg hv]

/-- An inode with an indirect block names it. -/
theorem names_indirect (hj : j < s.sb.ninodes) (h : (cur s j).addrs ndirect ≠ 0) :
    Names s (j, ndirect) ((cur s j).addrs ndirect) :=
  ⟨hj, show ndirect < nslots by decide, h, by
    unfold slot
    rw [if_pos (Nat.le_refl _)]⟩

/-- What belongs to the inodes other than `i` is the same. -/
structure Elsewhere (i : Nat) (s s' : FsState) : Prop where
  sb : s'.sb = s.sb
  inode : ∀ j, j ≠ i → s'.inode j = s.inode j
  disk : ∀ j < s.sb.ninodes, j ≠ i → onDisk s' j = onDisk s j
  indirect : ∀ j < s.sb.ninodes, j ≠ i → (cur s j).addrs ndirect ≠ 0 →
    s'.blk ((cur s j).addrs ndirect) = s.blk ((cur s j).addrs ndirect)

namespace Elsewhere

variable (h : Elsewhere i s s')

include h

theorem cur (hj : j < s.sb.ninodes) (hne : j ≠ i) : cur s' j = cur s j := by
  unfold Fs.cur
  rw [h.inode j hne, h.disk j hj hne]

theorem slot (hj : j < s.sb.ninodes) (hne : j ≠ i) (k : Nat) :
    slot s'.blk (Fs.cur s' j) k = slot s.blk (Fs.cur s j) k := by
  rw [h.cur hj hne]
  exact slot_congr (h.indirect j hj hne) k

theorem names {u : Nat × Nat} (hne : u.1 ≠ i) : Names s' u b ↔ Names s u b := by
  unfold Names
  rw [h.sb]
  constructor
  · intro hu
    rw [h.slot hu.1 hne] at hu
    exact hu
  · intro hu
    rw [h.slot hu.1 hne]
    exact hu

/-- If inode `i` has the same slots, every inode has. -/
theorem names_of_slot (hslot : ∀ x, Fs.slot s'.blk (Fs.cur s' i) x = Fs.slot s.blk (Fs.cur s i) x)
    (u : Nat × Nat) (b : Nat) (hu : Names s' u b) : Names s u b := by
  by_cases hne : u.1 = i
  · obtain ⟨hj, hx, hb, hv⟩ := hu
    rw [hne, hslot] at hv
    exact ⟨h.sb ▸ hj, hx, hb, by rw [hne]; exact hv⟩
  · exact (h.names hne).mp hu

theorem filled (hj : j < s.sb.ninodes) (hne : j ≠ i)
    (hf : Filled s.blk (Fs.cur s j)) : Filled s'.blk (Fs.cur s' j) where
  bound := by rw [h.cur hj hne]; exact hf.bound
  there := fun n hn => by
    rw [h.slot hj hne]
    rw [h.cur hj hne] at hn
    exact hf.there n hn

theorem saved (hj : j < s.sb.ninodes) (hne : j ≠ i) (hs : Saved s j) : Saved s' j where
  same := by rw [h.inode j hne, h.disk j hj hne]; exact hs.same
  typed := by rw [h.inode j hne]; exact hs.typed

theorem trans {s'' : FsState} (h' : Elsewhere i s' s'') : Elsewhere i s s'' where
  sb := h'.sb.trans h.sb
  inode := fun j hne => (h'.inode j hne).trans (h.inode j hne)
  disk := fun j hj hne => (h'.disk j (h.sb ▸ hj) hne).trans (h.disk j hj hne)
  indirect := fun j hj hne h0 => by
    have hcur := h.cur hj hne
    have h1 := h'.indirect j (h.sb ▸ hj) hne (hcur ▸ h0)
    rw [hcur] at h1
    exact h1.trans (h.indirect j hj hne h0)

/-- The rest of `Busy` follows from the use of the blocks. -/
theorem busy (hb : Busy i s) (hvalid : (s'.inode i).valid = true)
    (hrange : InRange (s'.inode i).toDinode) (hsound : Sound s') : Busy i s' where
  lt := by rw [h.sb]; exact hb.lt
  valid := hvalid
  range := hrange
  sound := hsound
  filled := fun j hj hne => h.filled (h.sb ▸ hj) hne (hb.filled j (h.sb ▸ hj) hne)
  saved := fun j hj hne => h.saved (h.sb ▸ hj) hne (hb.saved j (h.sb ▸ hj) hne)

end Elsewhere

theorem Elsewhere.refl (i : Nat) (s : FsState) : Elsewhere i s s :=
  ⟨rfl, fun _ _ => rfl, fun _ _ _ => rfl, fun _ _ _ _ => rfl⟩

/-- A change of the in-memory inode. -/
theorem Elsewhere.setInode (i : Nat) (ip : Inode) (s : FsState) :
    Elsewhere i s { s with inode := update s.inode i ip } where
  sb := rfl
  inode := fun _ hne => update_of_ne hne ..
  disk := fun _ _ _ => rfl
  indirect := fun _ _ _ _ => rfl

/-- A data block that no other inode has as its indirect block. -/
theorem Elsewhere.store (hl : Layout s.sb) (hb : Data s.sb b) (d : Block)
    (hind : ∀ j < s.sb.ninodes, j ≠ i → (Fs.cur s j).addrs ndirect ≠ b) :
    Elsewhere i s { s with blk := update s.blk b d } where
  sb := rfl
  inode := fun _ _ => rfl
  disk := fun j hj _ => by
    have h1 := hl.iblock_lt hj
    have h2 := bmapstart_lt_datastart s.sb
    have h3 := hb.1
    unfold onDisk
    dsimp only
    rw [update_of_ne (by omega)]
  indirect := fun j hj hne _ => update_of_ne (hind j hj hne) ..

/-- A block outside the inodes' and the bitmap's region does not say what
is marked. -/
theorem used_store (hb : Data s.sb b) (d : Block) (x : Nat) :
    Used { s with blk := update s.blk b d } x ↔ Used s x := by
  unfold Used
  dsimp only
  by_cases hx : x < s.sb.size
  · rw [update_of_ne (hb.offMap.ne_bblock hx).symm]
  · simp only [hx, false_and]

end Fs

end GemOS
