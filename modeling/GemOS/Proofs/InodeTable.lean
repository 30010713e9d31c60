/-
References to inodes and files, in the middle of a system call.

A reference counted in `ip->ref` belongs to an open file, to the current
directory of a process, or to the call in progress. `Base` says that the
counts add up when those of the call are listed beside the state: `Holds`
has the files and inodes the call keeps, and the views `o` and `w` of the
descriptors and current directories that count, which differ from those of
the state where a call gives one up (`exit` calls `fileclose` before it
clears the slot).

The inodes a path lookup goes through are listed apart, as `W`. An
allocated inode without links is held by a file, a current directory or
the call (`kept`), and not only by the lookup. So `iput` frees nothing
during a lookup (`wpn_iput_walk`), and lookups leave the inodes as they
are. Elsewhere `iput` may free its inode, which is then without links and
held by nobody (`Putting`).
-/
import GemOS.Kernel.SysFile
import GemOS.Lib.Tally
import GemOS.Lib.WpNotes
import Mathlib.Data.Fintype.Prod
import Mathlib.Data.Multiset.Count

namespace GemOS

open Function Prog

namespace Vfs

-- ======== who holds what

/-- Does the file keep this inode? -/
def FdType.refers : FdType → InodeId → Bool
  | .inode ip, e => ip == e
  | .device ip, e => ip == e
  | _, _ => false

/-- How many descriptors point to the file. -/
def descs (o : ProcId × Fd → Option FileId) (f : FileId) : Nat :=
  tally Finset.univ (fun x => if x = some f then 1 else 0) o

/-- How many files keep the inode. -/
def openers (ft : FileId → File) (e : InodeId) : Nat :=
  tally Finset.univ (fun x : File => if x.type.refers e then 1 else 0) ft

/-- How many processes have the inode as their current directory. -/
def dwellers (w : ProcId → Option InodeId) (e : InodeId) : Nat :=
  tally Finset.univ (fun x => if x = some e then 1 else 0) w

/-- The descriptors and current directories that count, and what the call
in progress keeps. -/
structure Holds where
  o : ProcId × Fd → Option FileId
  w : ProcId → Option InodeId
  files : Multiset FileId
  inodes : Multiset InodeId

/-- The references to an inode that are not a lookup's. -/
def solid (h : Holds) (s : Vfs) (e : InodeId) : Nat :=
  openers s.ftable e + dwellers h.w e + h.inodes.count e

/-- The first two entries of directory `i` with parent `p`. -/
def dots (i p : Nat) : List Dirent := [⟨i, dot⟩, ⟨p, dotdot⟩]

/-- The entries of a directory, `.` and `..` first. -/
structure DirShape (i : Nat) (ents : List Dirent) : Prop where
  dots : ∃ p names, ents = dots i p ++ names ∧ p ≠ 0
    ∧ ∀ de ∈ names, de.inum ≠ 0 → de.name ≠ dot ∧ de.name ≠ dotdot
  bound : ∀ de ∈ ents, de.inum < 2 ^ 16

/-- Only directories have entries. -/
structure Shape (i : Nat) (d : Node) : Prop where
  dir : d.type = .dir → DirShape i d.ents
  other : d.type ≠ .dir → d.ents = []

/-- The references add up, `W` being those of a lookup. -/
structure Base (h : Holds) (W : Multiset InodeId) (s : Vfs) : Prop where
  file : ∀ f, (s.ftable f).ref = descs h.o f + h.files.count f
  closed : ∀ f, (s.ftable f).ref = 0 → (s.ftable f).type = .none
  inode : ∀ e, (s.itable e).ref = solid h s e + W.count e
  unique : ∀ e e', 0 < (s.itable e).ref → 0 < (s.itable e').ref →
    (s.itable e).dev = (s.itable e').dev →
    (s.itable e).inum = (s.itable e').inum → e = e'
  home : ∀ e, 0 < (s.itable e).ref → (s.itable e).dev = rootdev
  inum : ∀ e, 0 < (s.itable e).ref → (s.itable e).inum ≠ 0 ∧ (s.itable e).inum < 2 ^ 16
  loaded : ∀ e, 0 < solid h s e → (s.itable e).valid = true
  typed : ∀ e, 0 < (s.itable e).ref → (s.itable e).valid = true → (s.ip e).type ≠ .free
  kept : ∀ i, (s.node i).type ≠ .free → (s.node i).nlink = 0 →
    ∃ e, (s.itable e).inum = i ∧ 0 < solid h s e
  shape : ∀ i, Shape i (s.node i)
  size : s.ninodes ≤ 2 ^ 16
  inside : ∀ i, (s.node i).type ≠ .free → i ≠ 0 ∧ i < s.ninodes

/-- What a lookup leaves alone. -/
structure Quiet (s s' : Vfs) : Prop where
  ninodes : s'.ninodes = s.ninodes
  node : s'.node = s.node
  ftable : s'.ftable = s.ftable
  proc : s'.proc = s.proc

theorem Quiet.refl (s : Vfs) : Quiet s s := ⟨rfl, rfl, rfl, rfl⟩

variable {s s' s'' : Vfs} {e : InodeId}

theorem Quiet.trans (h : Quiet s s') (h' : Quiet s' s'') : Quiet s s'' :=
  ⟨h'.ninodes.trans h.ninodes, h'.node.trans h.node, h'.ftable.trans h.ftable, h'.proc.trans h.proc⟩

/-- Counts depend on the tables alone. -/
theorem Quiet.solid (hq : Quiet s s') (h : Holds) (e : InodeId) : solid h s' e = solid h s e := by
  unfold Vfs.solid
  rw [hq.ftable]

/-- The entry goes on standing for the same inode. -/
def Stays (s s' : Vfs) (e : InodeId) : Prop :=
  (s'.itable e).inum = (s.itable e).inum ∧ ((s.itable e).valid = true → (s'.itable e).valid = true)

theorem Stays.refl (s : Vfs) (e : InodeId) : Stays s s e := ⟨rfl, id⟩

theorem Stays.trans (h : Stays s s' e) (h' : Stays s' s'' e) : Stays s s'' e :=
  ⟨h'.1.trans h.1, fun hv => h'.2 (h.2 hv)⟩

/-- An entry that stays shows the same inode. -/
theorem Stays.ip (h : Stays s s' e) (hq : Quiet s s') : s'.ip e = s.ip e := by
  unfold Vfs.ip
  rw [h.1, hq.node]

section

variable {h : Holds} {W : Multiset InodeId} {s s' : Vfs} {e : InodeId} {i : Nat} {E : Halt → Prop}

-- ======== first facts

/-- A reference in hand is counted. -/
theorem Base.ref_pos_of_mem (hb : Base h W s) (he : e ∈ W) : 0 < (s.itable e).ref := by
  have := Multiset.count_pos.mpr he
  rw [hb.inode]
  omega

theorem Base.ref_pos (hb : Base h {e} s) : 0 < (s.itable e).ref :=
  hb.ref_pos_of_mem (Multiset.mem_singleton_self e)

theorem Base.ref_pos_of_solid (hb : Base h W s) (he : 0 < solid h s e) : 0 < (s.itable e).ref := by
  rw [hb.inode]
  omega

variable {e' : InodeId} {x : Ient}

/-- Two entries in use for one inode are one entry. -/
theorem Base.eq_of_inum (hb : Base h W s) (he : 0 < (s.itable e).ref) (he' : 0 < (s.itable e').ref)
    (hi : (s.itable e).inum = (s.itable e').inum) : e = e' :=
  hb.unique e e' he he' ((hb.home e he).trans (hb.home e' he').symm) hi

/-- An allocated inode without links is held by more than a lookup. -/
theorem Base.two_le_ref (hb : Base h W s) (he : e ∈ W)
    (hv : (s.itable e).valid = true) (hn : (s.ip e).nlink = 0) : 2 ≤ (s.itable e).ref := by
  have hpos := hb.ref_pos_of_mem he
  obtain ⟨e', hi, hs⟩ := hb.kept _ (hb.typed e hpos hv) hn
  have heq := hb.eq_of_inum (hb.ref_pos_of_solid hs) hpos hi
  have := Multiset.count_pos.mpr he
  rw [heq] at hs
  rw [hb.inode]
  omega

/-- One entry of the table changes. -/
theorem Base.setEnt (hb : Base h W s) (W' : Multiset InodeId)
    (hs' : { s with itable := update s.itable e x } = s')
    (hcount : ∀ e', e' ≠ e → W'.count e' = W.count e')
    (href : x.ref = solid h s e + W'.count e) (hdev : x.dev = rootdev)
    (hinum : x.inum ≠ 0 ∧ x.inum < 2 ^ 16)
    (huniq : ∀ e', e' ≠ e → 0 < (s.itable e').ref → (s.itable e').inum ≠ x.inum)
    (hsolid : 0 < solid h s e → x.valid = true ∧ x.inum = (s.itable e).inum)
    (htyped : x.valid = true → (s.node x.inum).type ≠ .free) : Base h W' s' := by
  have hself : s'.itable e = x := by
    rw [← hs']
    exact update_self ..
  have hother : ∀ e', e' ≠ e → s'.itable e' = s.itable e' := by
    intro e' hne
    rw [← hs']
    exact update_of_ne hne ..
  have hsol : ∀ e', solid h s' e' = solid h s e' := by
    intro e'
    rw [← hs']
    rfl
  have hnode : s'.node = s.node := by rw [← hs']
  have hft : s'.ftable = s.ftable := by rw [← hs']
  have hnin : s'.ninodes = s.ninodes := by rw [← hs']
  refine ⟨?_, ?_, ?_, ?_, ?_, ?_, ?_, ?_, ?_, ?_, ?_, ?_⟩
  · rw [hft]; exact hb.file
  · rw [hft]; exact hb.closed
  · grind [hb.inode]
  · grind [hb.eq_of_inum]
  · grind [hb.home]
  · grind [hb.inum]
  · grind [hb.loaded]
  · intro e' hpos hv
    unfold Vfs.ip
    by_cases hne : e' = e
    · grind
    · rw [hother e' hne] at hpos hv ⊢
      rw [hnode]
      exact hb.typed e' hpos hv
  · intro i hi hn
    rw [hnode] at hi hn
    obtain ⟨e', hei, hes⟩ := hb.kept i hi hn
    refine ⟨e', ?_, by rw [hsol]; exact hes⟩
    by_cases hne : e' = e
    · rw [hne] at hes hei ⊢
      rw [hself, (hsolid hes).2, hei]
    · rw [hother e' hne]; exact hei
  · rw [hnode]; exact hb.shape
  · rw [hnin]; exact hb.size
  · rw [hnode, hnin]; exact hb.inside

theorem count_cons_of_ne (W : Multiset InodeId) (hne : e' ≠ e) : (e ::ₘ W).count e' = W.count e' :=
  Multiset.count_cons_of_ne hne W

/-- The count of an entry in use changes. -/
theorem Base.setRef (hb : Base h W s) (W' : Multiset InodeId)
    (hpos : 0 < (s.itable e).ref) (n : Int) (hcount : ∀ e', e' ≠ e → W'.count e' = W.count e')
    (hn : n + W.count e = (s.itable e).ref + W'.count e) : Base h W' { s with
      itable := update s.itable e { s.itable e with ref := n } } := by
  refine hb.setEnt W' rfl hcount ?_ (hb.home e hpos) (hb.inum e hpos) ?_
    (fun hs => ⟨hb.loaded e hs, rfl⟩) (hb.typed e hpos)
  · have := hb.inode e
    show n = _
    omega
  · intro e' hne hpos' hi'
    exact hne (hb.eq_of_inum hpos' hpos hi')

theorem stays_setEnt (s : Vfs) (e : InodeId) (hinum : x.inum = (s.itable e).inum)
    (hvalid : (s.itable e).valid = true → x.valid = true) (e' : InodeId) :
    Stays s { s with itable := update s.itable e x } e' := by
  unfold Stays
  by_cases hne : e' = e
  · grind [update_apply]
  · simp only [ne_eq, hne, not_false_eq_true, update_of_ne]
    exact ⟨trivial, id⟩

-- ======== the functions

/-- The faults other than that of `ilock` on a free inode are of no
interest here. -/
def noType : Halt := .panic "ilock: no type"

variable (hE : ∀ x, x ≠ noType → E x)

include hE

/-- `iget` puts one reference into the hand. -/
theorem wpn_iget (hb : Base h W s) (hi : i ≠ 0 ∧ i < 2 ^ 16) :
    wpn E (iget rootdev i) (fun e s' t => t = [] ∧
      Base h (e ::ₘ W) s' ∧ (s'.itable e).inum = i ∧ Quiet s s'
        ∧ ∀ e', 0 < (s.itable e').ref → Stays s s' e') s := by
  unfold iget
  refine .get_bind ?_
  split
  · next e hfind =>
    have hp := List.find?_some hfind
    simp only [Bool.and_eq_true, decide_eq_true_eq, beq_iff_eq] at hp
    obtain ⟨⟨hpos, -⟩, hnum⟩ := hp
    refine .modify_bind (.pure ⟨rfl, ?_, ?_, ⟨rfl, rfl, rfl, rfl⟩, ?_⟩)
    · grind [hb.setRef, count_cons_of_ne, Multiset.count_cons_self]
    · simpa using hnum
    · grind [stays_setEnt]
  · next hnone =>
    have hno : ∀ e', 0 < (s.itable e').ref → (s.itable e').inum ≠ i := by
      grind [hb.home]
    split
    · next e hfind =>
      have hzero : (s.itable e).ref = 0 := by
        simpa using List.find?_some hfind
      have hin := hb.inode e
      refine .modify_bind (.pure ⟨rfl, ?_, ?_, ⟨rfl, rfl, rfl, rfl⟩, ?_⟩)
      · grind [hb.setEnt, count_cons_of_ne, Multiset.count_cons_self]
      · simp
      · intro e' hpos
        have hne : e' ≠ e := by
          intro heq
          rw [heq, hzero] at hpos
          exact absurd hpos (by decide)
        simp [Stays, hne]
    · exact .fault (hE _ (by decide))

omit hE in
/-- `idup` puts one more reference into the hand. -/
theorem wpn_idup (hb : Base h W s) (hpos : 0 < (s.itable e).ref) :
    wpn E (idup e) (fun r s' t => t = [] ∧ r = e ∧
      Base h (e ::ₘ W) s' ∧ Quiet s s' ∧ ∀ e', Stays s s' e') s := by
  unfold idup
  refine .modify_bind (.pure ⟨rfl, rfl, ?_, ⟨rfl, rfl, rfl, rfl⟩, stays_setEnt s e rfl id⟩)
  apply hb.setRef (e ::ₘ W) hpos _ fun _ => count_cons_of_ne W
  rw [Multiset.count_cons_self]
  push_cast
  omega

/-- `ilock` reads the inode; its panic is one for a free one. -/
theorem wpn_ilock (hb : Base h W s) (hpos : 0 < (s.itable e).ref)
    (hsafe : E noType ∨ (s.ip e).type ≠ .free) :
    wpn E (ilock e) (fun _ s' t => t = [] ∧ Base h W s' ∧ (s'.itable e).valid = true ∧ Quiet s s'
        ∧ ∀ e', Stays s s' e') s := by
  unfold ilock
  refine .get_bind (.ite (fun _ => .fault (hE _ (by decide))) fun _ => ?_)
  refine .ite (fun hv => .pure ⟨rfl, hb, hv, .refl s, .refl s⟩) fun _ => ?_
  refine .modify_bind (.ite (fun hfree => .fault ?_) fun hfree => .pure ?_)
  · exact hsafe.resolve_right fun hn => hn hfree
  · refine ⟨rfl, ?_, by simp, ⟨rfl, rfl, rfl, rfl⟩, stays_setEnt s e rfl fun _ => rfl⟩
    refine hb.setEnt W rfl (fun _ _ => rfl) (hb.inode e) (hb.home e hpos)
      (hb.inum e hpos) ?_ (fun _ => ⟨rfl, rfl⟩) fun _ => hfree
    intro e' hne hpos' hi'
    exact hne (hb.eq_of_inum hpos' hpos hi')

omit hE in
/-- Nothing is freed during a lookup. -/
theorem wpn_iput_walk (hb : Base h (e ::ₘ W) s) :
    wpn E (iput e) (fun _ s' t => t = [] ∧ Base h W s' ∧ Quiet s s' ∧ ∀ e', Stays s s' e') s := by
  have hmem : e ∈ e ::ₘ W := Multiset.mem_cons_self e W
  have hpos := hb.ref_pos_of_mem hmem
  unfold iput
  refine .get_bind (.ite (fun hlast => ?_) fun _ => .modify ?_)
  · have := hb.two_le_ref hmem hlast.2.1 hlast.2.2
    omega
  · refine ⟨rfl, ?_, ⟨rfl, rfl, rfl, rfl⟩, stays_setEnt s e rfl id⟩
    apply hb.setRef W hpos _ fun _ hne => (count_cons_of_ne W hne).symm
    rw [Multiset.count_cons_self]
    push_cast
    omega

end

end Vfs

end GemOS
