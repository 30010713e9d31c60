/-
Every operation on files keeps the blocks apart (`block_ownership`).

`readi` finds a block at every position it reads and changes nothing.
`writei` goes on only from positions that have a block, so when it ends
every position below the offset reached has one (`Upto`).
-/
import GemOS.Proofs.FileOps

namespace GemOS

namespace Fs

open Function Prog

variable {s s' s0 s1 : FsState} {i j k b r : Nat} {E : Halt → Prop}

-- ======== positions

variable {n lim off size type : Nat} {dst : Sink} {src : Source} {ip : Inode} {d : Dinode}

theorem posSlot_lt (h : n < maxfile) : posSlot n < nslots := by
  unfold posSlot nslots
  unfold maxfile at h
  split <;> omega

theorem posSlot_ne (n : Nat) : posSlot n ≠ ndirect := by
  unfold posSlot
  split <;> omega

/-- The positions that begin below `lim` have a block. -/
def Upto (i lim : Nat) (s : FsState) : Prop :=
  ∀ n, n * bsize < lim → slot s.blk (cur s i) (posSlot n) ≠ 0

/-- Allocating a block does not uncover one. -/
theorem Grown.upto (h : Grown i s s') (hu : Upto i lim s) : Upto i lim s' := by
  intro n hn
  rw [h.keeps _ (hu n hn)]
  exact hu n hn

/-- The position of `off` and all before it have a block. -/
theorem Upto.extend {m : Nat} (hu : Upto i off s)
    (hoff : slot s.blk (cur s i) (posSlot (off / bsize)) ≠ 0)
    (hm : m ≤ bsize - off % bsize) : Upto i (off + m) s := by
  intro n hn
  have hdiv := Nat.div_add_mod off bsize
  by_cases hlast : n = off / bsize
  · rw [hlast]; exact hoff
  · apply hu n
    unfold bsize at *
    omega

/-- Changes of the inode that are not about its blocks. -/
theorem Busy.setFields (hb : Busy i s) (ip : Inode)
    (haddrs : ip.addrs = (s.inode i).addrs) (hvalid : ip.valid = true)
    (hrange : InRange ip.toDinode) (hs' : { s with inode := update s.inode i ip } = s') :
    Busy i s' ∧ s'.inode i = ip ∧ ∀ x, slot s'.blk (Fs.cur s' i) x = slot s.blk (Fs.cur s i) x := by
  have hino : s'.inode i = ip := by
    rw [← hs']
    exact update_self ..
  have he : Elsewhere i s s' := by
    rw [← hs']
    exact .setInode i ip s
  have hblk : s'.blk = s.blk := by rw [← hs']
  have hslot : ∀ x, slot s'.blk (Fs.cur s' i) x = slot s.blk (Fs.cur s i) x := by
    intro x
    rw [cur_of_valid (by rw [hino]; exact hvalid), hino, hb.cur, hblk]
    unfold slot
    rw [haddrs]
  refine ⟨he.busy hb ?_ ?_ (hb.sound.mono he.sb ?_ (he.names_of_slot hslot)), hino, hslot⟩
  · rw [hino]; exact hvalid
  · rw [hino]; exact hrange
  · intro b
    rw [← hs']
    exact Iff.rfl

/-- A block of the file's contents is overwritten. -/
theorem Busy.store (hb : Busy i s) {x : Nat} (hn : Names s (i, x) b) (hx : x ≠ ndirect) (d : Block)
    (hs' : { s with blk := update s.blk b d } = s') : Busy i s' ∧ s'.inode = s.inode
      ∧ ∀ x, slot s'.blk (Fs.cur s' i) x = slot s.blk (Fs.cur s i) x := by
  have hdata := hb.sound.ledger.inPool _ _ hn
  have hino : s'.inode = s.inode := by rw [← hs']
  have hne : ∀ j < s.sb.ninodes, (Fs.cur s j).addrs ndirect ≠ b :=
    fun j hj => hb.sound.indirect_ne hn hj fun h => hx (congrArg Prod.snd h).symm
  have he : Elsewhere i s s' := by
    rw [← hs']
    exact .store hb.sound.layout hdata d fun j hj _ => hne j hj
  have hcur : Fs.cur s' i = Fs.cur s i := by
    rw [cur_of_valid (by rw [hino]; exact hb.valid), hino, hb.cur]
  have hslot : ∀ x, slot s'.blk (Fs.cur s' i) x = slot s.blk (Fs.cur s i) x := by
    intro x
    rw [hcur, ← hs']
    exact slot_congr (fun _ => update_of_ne (hne i hb.lt) ..) x
  refine ⟨he.busy hb ?_ ?_ (hb.sound.mono he.sb ?_ (he.names_of_slot hslot)), hino, hslot⟩
  · rw [hino]; exact hb.valid
  · rw [hino]; exact hb.range
  · rw [← hs']
    exact used_store hdata d

-- ======== `readi`

/-- Below the limit every block is there, so nothing is allocated. -/
theorem wp_readiLoop (hb : Busy i s) (hf : Upto i lim s)
    (hlim : lim ≤ maxfile * bsize) (fuel : Nat) : ∀ tot off out, off + (n - tot) ≤ lim →
      wp E (readiLoop i n dst fuel tot off out) (fun _ s' => s' = s) s := by
  induction fuel with
  | zero => exact fun _ _ _ _ => rfl
  | succ fuel ih =>
    intro tot off out hle
    unfold readiLoop
    refine .ite (fun htot => ?_) fun _ => .pure rfl
    have hdiv := Nat.div_mul_le_self off bsize
    have hpos : off / bsize < maxfile := Nat.div_lt_of_lt_mul (by rw [Nat.mul_comm]; omega)
    have hthere := hf (off / bsize) (by omega)
    refine (wp_bmap_there hb hpos hthere).bind fun r s' hr => ?_
    rw [hr.2]
    refine .ite (fun _ => .pure rfl) fun _ => .get_bind ?_
    refine .ite (fun _ => .pure rfl) fun _ => ?_
    exact ih _ _ _ (by omega)

/-- `readi` changes nothing. -/
theorem wp_readi (hb : Busy i s) (hf : Filled s.blk (cur s i))
    (hoff : off < 2 ^ 32) (hn : n < 2 ^ 32) : wp E (readi i dst off n) (fun _ s' => s' = s) s := by
  have hsize : (s.inode i).size = (cur s i).size := by rw [hb.cur]
  unfold readi
  refine .get_bind (.ite (fun _ => .pure rfl) fun hok => ?_)
  refine wp_readiLoop hb hf.there hf.bound _ _ _ _ ?_
  rw [← hsize]
  split <;> omega

-- ======== `writei`

/-- The loop of `writei` has reached `off`. -/
structure Written (i size type off : Nat) (s : FsState) : Prop where
  busy : Busy i s
  sized : (cur s i).size = size
  typed : (cur s i).type = type
  old : Upto i size s
  upto : Upto i off s

theorem Written.grown (h : Written i size type off s) (hb : Busy i s') (hg : Grown i s s') :
    Written i size type off s' where
  busy := hb
  sized := hg.size.trans h.sized
  typed := hg.type.trans h.typed
  old := hg.upto h.old
  upto := hg.upto h.upto

/-- Bytes are stored into the block of a position. -/
theorem Written.store (h : Written i size type off s)
    (hr : slot s.blk (cur s i) (posSlot n) = r) (h0 : r ≠ 0) (hn : n < maxfile)
    (d : Block) (hs' : { s with blk := update s.blk r d } = s') : Written i size type off s' := by
  obtain ⟨hb, hino, hslot⟩ := h.busy.store ⟨h.busy.lt, posSlot_lt hn, h0, hr⟩ (posSlot_ne n) d hs'
  have hcur : cur s' i = cur s i := by
    rw [hb.cur, hino, h.busy.cur]
  refine ⟨hb, by rw [hcur]; exact h.sized, by rw [hcur]; exact h.typed, ?_, ?_⟩
  · intro m hm
    rw [hslot]
    exact h.old m hm
  · intro m hm
    rw [hslot]
    exact h.upto m hm

/-- The loop of `writei`: the size is set behind it, so until then the
content may reach further. -/
theorem wp_writeiLoop (fuel : Nat) : ∀ (tot off : Nat) (s : FsState), Written i size type off s →
      off + (n - tot) ≤ maxfile * bsize → wp E (writeiLoop i n src fuel tot off) (fun p s' =>
        Written i size type p.2 s' ∧ p.2 ≤ maxfile * bsize) s := by
  induction fuel with
  | zero => exact fun _ _ _ h hle => ⟨h, by omega⟩
  | succ fuel ih =>
    intro tot off s h hle
    unfold writeiLoop
    refine .ite (fun htot => ?_) fun _ => .pure ⟨h, by omega⟩
    have hpos : off / bsize < maxfile := Nat.div_lt_of_lt_mul (by rw [Nat.mul_comm]; omega)
    refine (wp_bmap h.busy hpos).bind fun r s1 hend => ?_
    obtain ⟨hb1, hg1, hr⟩ := hend
    have h1 := h.grown hb1 hg1
    refine .ite (fun _ => .pure ⟨h1, by omega⟩) fun h0 => ?_
    split
    · next k _ =>
      exact .seq (wp_stored (.pure ⟨h1.store (hr h0) h0 hpos _ rfl, by omega⟩))
    · refine .seq (wp_logged (ih _ _ _ ?_ (by omega)))
      have hthere : slot s1.blk (cur s1 i) (posSlot (off / bsize)) ≠ 0 := by
        rw [hr h0]
        exact h0
      have hext : Written i size type (off + min (n - tot) (bsize - off % bsize)) s1 :=
        { h1 with upto := h1.upto.extend hthere (Nat.min_le_right ..) }
      exact hext.store (hr h0) h0 hpos _ rfl

/-- `writei` covers what it writes before it sets the size. -/
theorem wp_writei (h : Intact s) (hi : i < s.sb.ninodes)
    (hv : (s.inode i).valid = true) (hoff : off < 2 ^ 32) (hn : n < 2 ^ 32) :
    wp E (writei i src off n) (fun _ s' => Intact s') s := by
  have hb := h.busy hi hv
  have hf := h.filled i hi
  unfold writei
  refine .get_bind (.ite (fun _ => .pure h) fun hok => .ite (fun _ => .pure h) fun hmax => ?_)
  have hsize : (s.inode i).size = (cur s i).size := by rw [hb.cur]
  have hw : Written i (cur s i).size (cur s i).type off s :=
    ⟨hb, rfl, rfl, hf.there, fun m hm => hf.there m (by omega)⟩
  refine (wp_writeiLoop n 0 off s hw (by omega)).bind fun p s1 hend => ?_
  obtain ⟨tot, off'⟩ := p
  obtain ⟨hw1, hmax1⟩ := hend
  dsimp only at hw1 hmax1
  refine .seq (wp_setInode ?_)
  have hmem : (cur s1 i) = (s1.inode i).toDinode := hw1.busy.cur
  have hsz : (s1.inode i).size = (cur s i).size := by
    rw [← hw1.sized, hmem]
  have hbound := hf.bound
  obtain ⟨hb2, hino2, hslot2⟩ := hw1.busy.setFields { s1.inode i with
      size := if off' > (s1.inode i).size then off' else (s1.inode i).size }
    rfl hw1.busy.valid
    { hw1.busy.range with
      size := by
        have hlim : maxfile * bsize < 2 ^ 32 := by decide
        show (if _ then _ else _) < 2 ^ 32
        split <;> omega } rfl
  refine (wp_iupdate hb2).bind fun _ s3 hsync => .pure ?_
  have hcur3 : cur s3 i = (s3.inode i).toDinode := hsync.busy.cur
  refine hsync.busy.intact hsync.disk ⟨?_, ?_⟩ ?_
  · rw [hcur3, hsync.inode, hino2]
    show (if _ then _ else _) ≤ maxfile * bsize
    split <;> omega
  · intro m hm
    rw [hsync.slot, hslot2]
    rw [hcur3, hsync.inode, hino2] at hm
    change m * bsize < (if _ then _ else _) at hm
    split at hm
    · exact hw1.upto m hm
    · exact hw1.old m (by omega)
  · rw [hsync.inode, hino2]
    show (s1.inode i).type ≠ 0
    have htype := hw1.typed
    rw [hmem, hb.cur] at htype
    rw [htype]
    exact (h.saved i hi).typed hv

-- ======== giving up inodes

/-- The in-memory copy is dropped. -/
theorem Busy.release (h : Busy i s) (hdisk : (s.inode i).toDinode = onDisk s i)
    (hf : Filled s.blk (Fs.cur s i)) (hip : ip.valid = false) :
    Intact { s with inode := update s.inode i ip } := by
  generalize hs' : ({ s with inode := update s.inode i ip } : FsState) = s'
  have he : Elsewhere i s s' := by
    rw [← hs']
    exact .setInode i ip s
  have hino : (s'.inode i).valid = false := by
    rw [← hs']
    exact (congrArg Inode.valid (update_self ..)).trans hip
  have hblk : s'.blk = s.blk := by rw [← hs']
  have hcur : Fs.cur s' i = Fs.cur s i := by
    rw [h.cur, hdisk]
    unfold Fs.cur onDisk
    rw [if_neg (by rw [hino]; decide), he.sb, hblk]
  refine ⟨h.sound.mono he.sb ?_ (he.names_of_slot ?_), ?_, ?_⟩
  · intro b
    unfold Used
    rw [he.sb, hblk]
  · intro x
    rw [hcur, hblk]
  · grind [he.sb, he.filled, h.filled]
  · intro j hj
    by_cases hne : j = i
    · rw [hne]
      refine ⟨?_, ?_⟩
      · rw [hino]; exact nofun
      · rw [hino]; exact nofun
    · rw [he.sb] at hj
      exact he.saved hj hne (h.saved j hj hne)

theorem filled_empty {blk : Nat → Block} (h : d.size = 0) : Filled blk d where
  bound := by rw [h]; exact Nat.zero_le _
  there := fun n hn => by rw [h] at hn; exact absurd hn (Nat.not_lt_zero _)

theorem Truncated.filled (h : Truncated i s s') : Filled s'.blk (cur s' i) := by
  apply filled_empty
  rw [h.busy.cur, h.inode]

/-- Exactly the blocks of inode `i` have lost their mark. -/
def Returned (i : Nat) (s s' : FsState) : Prop :=
  ∀ b, Used s' b ↔ Used s b ∧ ¬ ∃ x, Names s (i, x) b

/-- The last reference to an inode without names frees its blocks. -/
theorem wp_iputLast (h : Intact s) (hi : i < s.sb.ninodes) :
    wp E (iputLast i) (fun _ s' => Intact s' ∧ ((s.inode i).valid = true → (s.inode i).nlink = 0 →
        Returned i s s')) s := by
  unfold iputLast
  refine .get_bind (.ite (fun hlast => ?_)
    fun hlast => .pure ⟨h, fun hv hn => absurd ⟨hv, hn⟩ hlast⟩)
  refine (wp_itrunc (h.busy hi hlast.1)).bind fun _ s1 ht => ?_
  refine .seq (wp_setInode ?_)
  obtain ⟨hb, hino, -⟩ := ht.busy.setFields { s1.inode i with type := 0 } rfl ht.busy.valid
    { ht.busy.range with type := show 0 < 2 ^ 16 by decide } rfl
  refine (wp_iupdate hb).bind fun _ s2 hsync => wp_setInode ⟨?_, ?_⟩
  · refine hsync.busy.release hsync.disk (filled_empty ?_) rfl
    rw [hsync.busy.cur, hsync.inode, hino]
    show (s1.inode i).size = 0
    rw [ht.inode]
  · intro _ _ b
    exact (hsync.used b).trans (ht.used b)

/-- A cache entry is given to another inode. -/
theorem Intact.recycle (h : Intact s) (i : Nat) (hip : ip.valid = false) :
    Intact { s with inode := update s.inode i ip } := by
  refine h.of_cur rfl rfl ?_ ?_
  · intro j hj
    by_cases hne : j = i
    · subst hne
      rw [(h.saved j hj).cur]
      simp [cur, onDisk, hip]
    · simp [cur, onDisk, hne]
  · intro j hj
    by_cases hne : j = i
    · subst hne
      refine ⟨?_, ?_⟩
      · simp [hip]
      · simp [hip]
    · have hold := h.saved j hj
      refine ⟨?_, ?_⟩
      · simpa [onDisk, hne] using hold.same
      · simpa [hne] using hold.typed

/-- A free inode becomes one without blocks. -/
theorem Intact.allocate (h : Intact s) (hi : i < s.sb.ninodes)
    (hfree : (onDisk s i).type = 0) (hd : InRange d) (hsize : d.size = 0)
    (haddrs : ∀ k, d.addrs k = 0) : Intact (withDinode s i d) := by
  have hv : ¬ (s.inode i).valid = true := by
    intro hv
    apply (h.saved i hi).typed hv
    rw [(h.saved i hi).same hv]
    exact hfree
  have he := h.sound.elsewhere_withDinode hi d
  have hcur : cur (withDinode s i d) i = d := by
    unfold cur
    exact (if_neg hv).trans (onDisk_withDinode_self hd i)
  refine ⟨h.sound.mono he.sb (used_withDinode h.sound.layout hi d) ?_, ?_, ?_⟩
  · intro u b hu
    by_cases hne : u.1 = i
    · obtain ⟨-, -, hb, hslot⟩ := hu
      rw [hne, hcur] at hslot
      refine absurd hslot.symm (fun hb' => hb ?_)
      rw [hb']
      unfold slot
      simp only [haddrs, if_true]
      split <;> rfl
    · exact (he.names hne).mp hu
  · intro j hj
    by_cases hne : j = i
    · rw [hne, hcur]
      exact filled_empty hsize
    · exact he.filled hj hne (h.filled j hj)
  · intro j hj
    by_cases hne : j = i
    · rw [hne]
      exact ⟨fun hv' => absurd hv' hv, fun hv' => absurd hv' hv⟩
    · exact he.saved hj hne (h.saved j hj)

/-- `ialloc` takes an inode that is free, and so names no block. -/
theorem wp_iallocLoop (h : Intact s) (ht : type < 2 ^ 16) (n : Nat) :
    ∀ inum, n = 0 ∨ inum + n ≤ s.sb.ninodes →
      wp E (iallocLoop type n inum) (fun _ s' => Intact s') s := by
  induction n with
  | zero => exact fun _ _ => .pure h
  | succ n ih =>
    intro inum hle
    unfold iallocLoop
    refine .get_bind (.ite (fun hfree => .seq (wp_logged (.pure ?_)))
      fun _ => ih (inum + 1) (by omega))
    refine h.allocate (by omega) hfree ?_ rfl fun _ => rfl
    have h16 : 0 < 2 ^ 16 := by decide
    have h32 : 0 < 2 ^ 32 := by decide
    exact ⟨ht, h16, h16, h16, h32, fun _ => h32, fun _ _ => rfl⟩

-- ======== the runs

/-- The faults an operation may end with: the inode is not one of the
disk's, or it is free. -/
def FileFault (e : Halt) : Prop :=
  e = .blocked ∨ e = .panic "ilock: no type"

theorem wp_onInode {α : Type} {x : FsM α} {Q : FsState → Prop}
    (h : Intact s) (hx : ∀ s1, i < s.sb.ninodes → Locked i s s1 →
      wp FileFault x (fun _ s' => Q s') s1) :
    wp FileFault (onInode i x) (fun _ s' => Q s') s := by
  unfold onInode
  refine .get_bind (.ite (fun hi => ?_) fun _ => .fault (.inl rfl))
  refine ((wp_ilock h i).weaken fun e he => .inr he.1).bind fun _ s1 hl => ?_
  exact (hx s1 hi hl).bind fun _ s' hs' => .pure hs'

/-- One case for each operation. -/
theorem FileOp.wp_prog (op : FileOp) (h : Intact s) :
    wp FileFault op.prog (fun _ s' => Intact s') s := by
  cases op with
  | read i dst off n =>
    refine wp_onInode h fun s1 hi hl => ?_
    have hi1 : i < s1.sb.ninodes := by rw [hl.sb]; exact hi
    refine (wp_readi (hl.intact.busy hi1 hl.valid)
      (hl.intact.filled i hi1) off.toNat_lt n.toNat_lt).mono ?_
    intro _ s' hs'
    rw [hs']
    exact hl.intact
  | write i src off n =>
    refine wp_onInode h fun s1 hi hl => ?_
    have hi1 : i < s1.sb.ninodes := by rw [hl.sb]; exact hi
    exact wp_writei hl.intact hi1 hl.valid off.toNat_lt n.toNat_lt
  | trunc i =>
    refine wp_onInode h fun s1 hi hl => ?_
    have hi1 : i < s1.sb.ninodes := by rw [hl.sb]; exact hi
    refine (wp_itrunc (hl.intact.busy hi1 hl.valid)).mono fun _ s' ht => ?_
    refine ht.busy.intact ht.disk ht.filled ?_
    rw [ht.inode]
    exact (hl.intact.saved i hi1).typed hl.valid
  | setLinks i n =>
    refine wp_onInode h fun s1 hi hl => .seq (wp_setInode ?_)
    have hi1 : i < s1.sb.ninodes := by rw [hl.sb]; exact hi
    have hb := hl.intact.busy hi1 hl.valid
    obtain ⟨hb2, hino, hslot⟩ := hb.setFields { s1.inode i with nlink := n.toNat } rfl hl.valid
      { hb.range with nlink := n.toNat_lt } rfl
    refine (wp_iupdate hb2).mono fun _ s3 hsync => ?_
    have hf := hl.intact.filled i hi1
    have hsize : (cur s3 i).size = (cur s1 i).size := by
      rw [hsync.busy.cur, hsync.inode, hino, hb.cur]
    refine hsync.busy.intact hsync.disk ⟨?_, ?_⟩ ?_
    · rw [hsize]
      exact hf.bound
    · grind [hsync.slot, hf.there]
    · rw [hsync.inode, hino]
      exact (hl.intact.saved i hi1).typed hl.valid
  | put i =>
    exact .get_bind (.ite (fun hi => (wp_iputLast h hi).mono fun _ _ hs' => hs'.1)
      fun _ => .fault (.inl rfl))
  | recycle i =>
    refine wp_setInode (f := fun ip => { ip with valid := false }) ?_
    exact h.recycle i rfl
  | alloc type =>
    exact .seq (.get_bind ((wp_iallocLoop h type.toNat_lt _ 1
      (by omega)).mono fun _ _ hs' => .pure hs'))

/-- The runs of the operations, from a file system in order. -/
abbrev FileRuns : Notes Nat FsState → FsState → Prop :=
  Reach (fun _ _ => True) Intact FileOp.prog

/-- The invariant holds in every run. -/
theorem FileRuns.intact {t : Notes Nat FsState} (h : FileRuns t s) : Intact s := by
  refine Reach.invariant (I := fun _ s => Intact s) (fun _ h => h) ?_ h
  intro op n s a s' t hs hrun _
  exact (op.wp_prog hs).ok hrun

theorem Locked.names (h : Locked i s s1) (u : Nat × Nat) : Names s1 u b ↔ Names s u b := by
  unfold Names
  rw [h.sb, h.blk, h.cur]

theorem Locked.used (h : Locked i s s1) : Used s1 b ↔ Used s b := by
  unfold Used
  rw [h.sb, h.blk]

/-- `itrunc` of an allocated inode returns, and gives back its blocks. -/
theorem Intact.trunc (h : Intact s) (hi : i < s.sb.ninodes) (ht : (cur s i).type ≠ 0) :
    ∃ s' t, FileOp.prog (.trunc i) s = .ok ((), s', t) ∧ Returned i s s' := by
  have hwp : wp (fun _ => False) (FileOp.prog (.trunc i)) (fun _ s' => Returned i s s') s := by
    refine .get_bind (.ite (fun _ => ?_) fun hn => (hn hi).elim)
    refine ((wp_ilock h i).weaken fun e he => ht he.2).bind fun _ s1 hl => ?_
    have hi1 : i < s1.sb.ninodes := by rw [hl.sb]; exact hi
    refine (wp_itrunc (hl.intact.busy hi1 hl.valid)).bind fun _ s' htr => .pure fun b => ?_
    rw [htr.used, hl.used]
    simp only [hl.names]
  obtain ⟨⟨⟩, s', t, hrun, hret⟩ := hwp.total
  exact ⟨s', t, hrun, hret⟩

/-- In every state of every run the blocks named by the inodes are
different and marked, files have no holes below their size, no operation
stops because of a block, and what truncating or freeing a file returns
are its blocks. -/
theorem block_ownership {t : Notes Nat FsState} {s : FsState} (h : FileRuns t s) :
    (∀ u v b, Names s u b → Names s v b → u = v) ∧ (∀ u b, Names s u b → Used s b)
      ∧ (∀ i < s.sb.ninodes, ∀ n < ((cur s i).size + bsize - 1) / bsize,
            slot s.blk (cur s i) (posSlot n) ≠ 0)
      ∧ (∀ op e, FileOp.prog op s = .error e → FileFault e)
      ∧ (∀ i < s.sb.ninodes, (cur s i).type ≠ 0 →
          ∃ s' t', FileOp.prog (.trunc i) s = .ok ((), s', t') ∧ Returned i s s')
      ∧ ∀ i s' t', FileOp.prog (.put i) s = .ok ((), s', t') →
          (s.inode i).valid = true → (s.inode i).nlink = 0 → Returned i s s' := by
  have hin := h.intact
  refine ⟨fun u v b hu hv => hin.sound.ledger.excl hu hv,
    hin.sound.ledger.marked, ?_, fun op e => (op.wp_prog hin).error,
    fun i hi ht => hin.trunc hi ht, ?_⟩
  · intro i hi n hn
    apply (hin.filled i hi).there n
    unfold bsize at *
    omega
  · intro i s' t' hrun
    have hwp : wp (fun _ => True) (FileOp.prog (.put i)) (fun _ s' =>
        (s.inode i).valid = true → (s.inode i).nlink = 0 → Returned i s s') s := by
      exact .get_bind (.ite (fun hi => (wp_iputLast hin hi).mono fun _ _ hs' => hs'.2)
        fun _ => .fault trivial)
    exact hwp.ok hrun

/-- An empty disk of 100 blocks, with inodes in block 2 and the bitmap in
block 3. -/
def emptyFs : FsState where
  sb := { size := 100, ninodes := 10, inodestart := 2, bmapstart := 3 }
  blk := fun b k => if b = 3 ∧ k = 0 then 0x0f else 0
  inode := fun _ =>
    { type := 0, major := 0, minor := 0, nlink := 0, size := 0
      addrs := fun _ => 0, valid := false }

/-- A file system with one empty file. -/
theorem emptyFs_intact : Intact emptyFs := by
  have hcur : ∀ j < 10, (cur emptyFs j).size = 0
      ∧ ∀ k, (cur emptyFs j).addrs k = 0 := by
    intro j hj
    have hblock : emptyFs.sb.iblock j = 2 := by
      show j / 16 + 2 = 2
      omega
    have hblk : emptyFs.blk 2 = fun _ => 0 := rfl
    have hdisk : cur emptyFs j = getDinode (fun _ => 0) (j % ipb) := by
      show onDisk emptyFs j = _
      unfold onDisk
      rw [hblock, hblk]
    rw [hdisk]
    refine ⟨rfl, fun k => ?_⟩
    unfold getDinode
    dsimp only
    split <;> rfl
  have hno : ∀ u b, ¬ Names emptyFs u b := by
    intro u b hu
    obtain ⟨hj, -, hb, hslot⟩ := hu
    apply hb
    rw [← hslot]
    unfold slot
    simp only [(hcur u.1 hj).2, if_true]
    split <;> rfl
  exact
    { sound :=
        { layout := ⟨by decide, by decide, by decide⟩
          reserved := by decide
          ledger := ⟨fun u _ b hu _ => (hno u b hu).elim,
            fun u b hu => (hno u b hu).elim, fun u b hu => (hno u b hu).elim⟩ }
      filled := fun j hj => filled_empty (hcur j hj).1
      saved := fun j _ => ⟨nofun, nofun⟩ }

/-- A file is created and three bytes are written to it. -/
def writeThree : List FileOp :=
  [.alloc 2, .write 1 ⟨fun k => UInt8.ofNat (7 + k), fun _ => none⟩ 0 3]

theorem block_ownership_three : ∃ t s, FileRuns t s ∧ (cur s 1).size = 3 ∧ Names s (1, 0) 4
      ∧ ∃ s' t', FileOp.prog (.trunc 1) s = .ok ((), s', t') ∧ Returned 1 s s' := by
  have hfresh : FileRuns [] emptyFs := .init emptyFs_intact
  obtain ⟨t, s, hr, hsize, htype, h1, hslot⟩ := hfresh.played (P := fun _ s =>
    (cur s 1).size = 3 ∧ (cur s 1).type = 2 ∧ 1 < s.sb.ninodes ∧ slot s.blk (cur s 1) 0 = 4)
    (fun _ _ _ _ _ => trivial) writeThree (by decide +kernel)
  obtain ⟨-, -, -, -, htrunc, -⟩ := block_ownership hr
  exact ⟨t, s, hr, hsize, ⟨h1, show 0 < nslots by decide, by decide, hslot⟩, htrunc 1 h1 (by omega)⟩

end Fs

end GemOS
