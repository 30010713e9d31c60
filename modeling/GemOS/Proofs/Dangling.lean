/-
No dangling directory entry.

An inode is freed only when its link count is zero. Every entry besides `.`
and `..` is counted, and every subdirectory counts once more for its
parent (`Sane.links`), so that what is named is not freed; this holds in
all directories, unlinked ones included. The `..` of a directory that was
unlinked is not counted. It may name a free inode once its parent is gone
as well, and a process whose current directory is the unlinked one can
still follow it. `Unorphaned` excludes that, and a link count that wraps.
-/
import GemOS.Proofs.Names

namespace GemOS

open Function Prog

namespace Vfs

/-- How many entries of the directory name directories. -/
def subs (s : Vfs) (i : Nat) : Nat :=
  (s.node i).names.countP fun de => decide ((s.node de.inum).type = .dir)

/-- What every change keeps. -/
structure Sane (s : Vfs) : Prop extends Shaped s where
  root : (s.node rootino).type = .dir
  links : ∀ i, (s.node i).type ≠ .free → named s i + subs s i + (if i = rootino then 1 else 0)
      ≤ (s.node i).nlink.toNat
  free : ∀ i, i ≠ 0 → (s.node i).type = .free → named s i = 0
  parent : ∀ x p, Reachable s x → (s.node x).type = .dir →
    (s.node x).parent = some p → (s.node p).type ≠ .free

/-- An inode is freed only if no other directory that a process can reach
has it as `..`; a link count is raised only if it does not wrap. -/
def Unorphaned : Note → Vfs → Prop
  | .freed e, m => ∀ x, Reachable m x → x ≠ (m.itable e).inum →
      (m.node x).type = .dir → (m.node x).parent ≠ some (m.itable e).inum
  | .raises i, m => (m.node i).nlink ≠ 0xFFFF
  | .adds _, _ => True

section

variable {s s' m : Vfs} {t : Notes Note Vfs} {d i x : Nat} {name : Name} {type : IType}

theorem subs_congr (hnames : (s'.node i).names = (s.node i).names) (htype : ∀ de ∈ (s.node i).names,
      (s'.node de.inum).type = (s.node de.inum).type) :
    subs s' i = subs s i := by
  unfold subs
  rw [hnames]
  refine List.countP_congr fun de hde => ?_
  rw [htype de hde]

/-- The parent's link count, which does not wrap. -/
theorem Created.nlink_dir (hc : Created s s' t d i name type) (hG : ∀ n ∈ t, Unorphaned n.1 n.2) :
    (s'.node d).nlink.toNat = (s.node d).nlink.toNat + if type = .dir then 1 else 0 := by
  obtain ⟨p, l, l', -, -, hnode⟩ := hc.names
  rw [hnode]
  dsimp only
  by_cases hdir : type = .dir
  · obtain ⟨k, hk, hnl⟩ := hc.raises hdir
    have hwrap : (k.node d).nlink ≠ 0xFFFF := hG _ hk
    rw [hnl] at hwrap
    rw [if_pos hdir, if_pos hdir]
    exact toNat_succ hwrap
  · rw [if_neg hdir, if_neg hdir, UInt16.add_zero]
    rfl

/-- A new directory is one more subdirectory. -/
theorem Created.subs_dir (hc : Created s s' t d i name type) (hnone : ∀ de ∈ (s.node d).names,
      (s'.node de.inum).type = (s.node de.inum).type)
    (hzero : (s.node 0).type = .free) :
    subs s' d = subs s d + if type = .dir then 1 else 0 := by
  obtain ⟨p, l, l', hold, hadd, hnew⟩ := hc.names_dir
  have hz : ∀ de : Dirent, de.inum = 0 → decide ((s'.node de.inum).type = .dir) = false := by
    grind [hc.type_eq, hc.inum]
  have hold' : l.countP (fun de => decide ((s'.node de.inum).type = .dir))
      = subs s d := by grind [subs, hold.names, List.countP_congr]
  unfold subs
  rw [hnew.names, hadd.countP hz, hold']
  simp only [decide_eq_true_eq, hc.made.1]
  rfl

theorem Unlinked.subs_lowered (hu : Unlinked s m s' t d i name) (hzero : (s.node 0).type = .free) :
    subs s d = subs (lowered m i) d + if (s.node i).type = .dir then 1 else 0 := by
  obtain ⟨p, l, l', hold, hrem, hnew⟩ := hu.names_dir
  have hz : (fun de : Dirent => decide ((s.node de.inum).type = .dir)) ⟨0, []⟩ = false := by
    show decide ((s.node 0).type = .dir) = false
    rw [hzero]
    rfl
  unfold subs
  rw [hold.names, hu.node_ne, hnew.names]
  simp only [hu.type_lowered]
  rw [hrem.countP hz]
  simp only [decide_eq_true_eq]

theorem Unlinked.edge (hu : Unlinked s m s' t d i name) {y : Nat}
    (he : Edge (lowered m i) x y) : Edge s x y := by
  obtain ⟨hdir, de, hde, rfl, hne⟩ := he
  rw [hu.type_lowered] at hdir
  refine ⟨hdir, de, ?_, rfl, hne⟩
  by_cases hxd : x = d
  · obtain ⟨p, l, l', hold, hrem, hnew⟩ := hu.names_dir
    rw [hxd, hu.node_ne, hnew.ents] at hde
    rw [hxd, hold.ents]
    rcases List.mem_append.mp hde with hde | hde
    · exact List.mem_append_left _ hde
    · grind [hrem.mem_of_mem, List.mem_append_right]
  · grind [hu.node_inode, hu.node_other]

variable (hs : Sane s)

include hs

/-- With good entries, no process gets to a free inode. -/
theorem Sane.good : Good s where
  root := hs.root
  entries := by
    intro x y hx hedge
    obtain ⟨hdir, de, hde, rfl, hne⟩ := hedge
    obtain ⟨p, l, hn⟩ := hs.shape x hdir
    have hxin := hs.inside x (ne_free_of_dir hdir)
    rw [hn.ents] at hde
    simp only [dots, List.cons_append, List.nil_append, List.mem_cons] at hde
    rcases hde with rfl | rfl | hde
    · exact ne_free_of_dir hdir
    · exact hs.parent x p hx hdir hn.parent
    · intro hfree
      have hz := hs.free de.inum hne hfree
      rw [← hn.names] at hde
      exact names_ne hxin.2 hz hde rfl

/-- An inode is freed. -/
theorem Sane.freed (hnl : (s.node i).nlink = 0) (halloc : (s.node i).type ≠ .free)
    (horphan : ∀ x, Reachable s x → x ≠ i → (s.node x).type = .dir → (s.node x).parent ≠ some i)
    (hn : s'.ninodes = s.ninodes) (hnode : s'.node = update s.node i (s.node i).clear)
    (hcwd : ∀ q j, cwdOf s' q = some j → Reachable s j) : Sane s' := by
  have hlinks := hs.links i halloc
  rw [hnl] at hlinks
  change named s i + subs s i + _ ≤ 0 at hlinks
  have hnamed : named s i = 0 := by omega
  have hroot : rootino ≠ i := by grind
  have hself : (s'.node i).type = .free := by
    rw [hnode, update_self]
    rfl
  have hother : ∀ x, x ≠ i → s'.node x = s.node x := by
    intro x hx
    rw [hnode, update_of_ne hx]
  have hle : ∀ x, named s' x ≤ named s x := by
    intro x
    have hup := tally_node s s' (Node.count x) (hs.inside i halloc).2 _ hn hnode
    have hz : (s.node i).clear.count x = 0 := Node.count_of_ne x (show IType.free ≠ .dir by decide)
    unfold named
    omega
  have hreach : ∀ x, Reachable s' x → Reachable s x := by
    intro x hx
    refine hx.mono hcwd fun x y he hx => .step hx ?_
    have hxi : x ≠ i := by
      intro heq
      rw [heq] at he
      exact absurd (hself.symm.trans he.1) (by decide)
    unfold Edge at he ⊢
    rw [hother x hxi] at he
    exact he
  refine ⟨hs.toShaped.cleared hn hself hother, ?_, ?_, ?_, ?_⟩
  · rw [hother rootino hroot]
    exact hs.root
  · intro x hx
    have hxi : x ≠ i := fun heq => hx (heq ▸ hself)
    have hsubs : subs s' x = subs s x := by
      refine subs_congr (by rw [hother x hxi]) fun de hde => ?_
      rw [hother x hxi] at hx
      rw [hother _ (names_ne (hs.inside x hx).2 hnamed hde)]
    have hxle := hle x
    rw [hother x hxi] at hx ⊢
    have := hs.links x hx
    omega
  · grind [hs.free]
  · grind [hs.parent]

/-- Only current directories change, to places that can be reached. -/
theorem Sane.moved (hn : s'.ninodes = s.ninodes) (hnode : s'.node = s.node)
    (hcwd : ∀ q j, cwdOf s' q = some j → Reachable s j) : Sane s' := by
  have hreach : ∀ x, Reachable s' x → Reachable s x := fun x hx =>
    hx.mono hcwd fun _ _ he hx => .step hx ((SameTree.of_eq hnode).edge he)
  have hnamed : ∀ x, named s' x = named s x := by
    intro x
    unfold named
    rw [hn, hnode]
  have hsubs : ∀ x, subs s' x = subs s x := by
    intro x
    unfold subs
    rw [hnode]
  refine ⟨hs.toShaped.congr hn hnode, ?_, ?_, ?_, ?_⟩
  · rw [hnode]; exact hs.root
  · intro i hi
    rw [hnode] at hi ⊢
    rw [hnamed, hsubs]
    exact hs.links i hi
  · grind [hs.free]
  · intro x p hx
    rw [hnode]
    exact hs.parent x p (hreach x hx)

/-- `iput`, which may free the inode. -/
theorem Sane.put (hf : Freeing s i t s'.node)
    (hG : ∀ n ∈ t, Unorphaned n.1 n.2) (hn : s'.ninodes = s.ninodes)
    (hcwd : ∀ q j, cwdOf s' q = some j → Reachable s j) : Sane s' := by
  generalize hnode : s'.node = node' at hf
  cases hf with
  | none => exact hs.moved hn hnode hcwd
  | freed e hinum hnl halloc =>
    subst hinum
    exact hs.freed hnl halloc (hG _ List.mem_cons_self) hn hnode hcwd

/-- A free inode changes and stays free. -/
theorem Sane.scrap (hi : (s.node i).type = .free) (hi' : (s'.node i).type = .free)
    (hother : ∀ x, x ≠ i → s'.node x = s.node x)
    (hn : s'.ninodes = s.ninodes) (hcwd : ∀ q, cwdOf s' q = cwdOf s q) : Sane s' := by
  have htype : ∀ x, (s'.node x).type = (s.node x).type := by grind
  have hnames : ∀ x, (s'.node x).names = (s.node x).names := by
    grind [Node.names_of_ne]
  have halloc : ∀ x, (s'.node x).type ≠ .free → s'.node x = s.node x := by
    intro x hx
    exact hother x fun heq => hx (heq ▸ hi')
  have hnamed : ∀ x, named s' x = named s x := by
    intro x
    unfold named Node.count
    rw [hn]
    exact tally_congr fun y _ => by rw [hnames]
  have hsubs : ∀ x, subs s' x = subs s x := fun x => subs_congr (hnames x) fun de _ => htype de.inum
  have hreach : ∀ x, Reachable s' x → Reachable s x := by
    intro x hx
    refine hx.mono (fun q j hq => .cwd ((hcwd q).symm.trans hq)) ?_
    intro x y he hx
    have hxs := halloc x (ne_free_of_dir he.1)
    refine .step hx ?_
    unfold Edge at he ⊢
    rw [← hxs]
    exact he
  refine ⟨hs.toShaped.cleared hn hi' hother, ?_, ?_, ?_, ?_⟩
  · rw [htype]
    exact hs.root
  · intro x hx
    rw [hnamed, hsubs, halloc x hx]
    exact hs.links x (by rw [← htype]; exact hx)
  · grind [hs.free]
  · grind [hs.parent]

-- ======== a new name

theorem Sane.node_zero : (s.node 0).type = .free := by
  by_contra hne
  exact (hs.inside 0 hne).1 rfl

theorem Sane.create (hc : Created s s' t d i name type)
    (hG : ∀ n ∈ t, Unorphaned n.1 n.2) (hn : s'.ninodes = s.ninodes)
    (hcwd : ∀ q, cwdOf s' q = cwdOf s q) : Sane s' := by
  obtain ⟨p, l, l', hold, hadd, hnew⟩ := hc.names_dir
  have hdin := hs.inside d (ne_free_of_dir hold.type)
  have hnamed : ∀ x, x ≠ 0 → named s' x = named s x + if i = x then 1 else 0 :=
    fun x hx => hc.named hn hdin.2 hx
  have hi0 := hs.free i hc.inum.1 hc.free
  have hmade : (s'.node i).type ≠ .free := by
    rw [hc.made.1]
    exact hc.type_ne
  have hri : rootino ≠ i := by grind [hs.root, hc.free]
  -- no entry named the new inode
  have hnone : ∀ x, (s.node x).type ≠ .free → ∀ de ∈ (s.node x).names,
      (s'.node de.inum).type = (s.node de.inum).type :=
    fun x hx de hde => hc.type_eq (names_ne (hs.inside x hx).2 hi0 hde)
  have hreach : ∀ x, Reachable s' x → x ≠ i → Reachable s x := by
    intro x hx
    induction hx with
    | root => exact fun _ => .root
    | cwd hq => exact fun _ => .cwd ((hcwd _).symm.trans hq)
    | @step x y hx he ih =>
      intro hyi
      obtain ⟨hdir, de, hde, rfl, hne⟩ := he
      by_cases hxi : x = i
      · -- from the new inode there is a way to itself and its parent
        rw [hxi] at hdir hde
        rw [hc.made.2.2, if_pos (hc.made.1.symm.trans hdir)] at hde
        simp only [dots, List.mem_cons, List.not_mem_nil, or_false] at hde
        rcases hde with rfl | rfl
        · exact (hyi rfl).elim
        · exact hc.reach
      · refine .step (ih hxi) ?_
        rw [hc.type_eq hxi] at hdir
        by_cases hxd : x = d
        · rw [hxd, hnew.ents] at hde
          refine ⟨hdir, de, ?_, rfl, hne⟩
          rw [hxd, hold.ents]
          rcases List.mem_append.mp hde with hde | hde
          · exact List.mem_append_left _ hde
          · grind [hadd.mem, List.mem_append_right]
        · rw [hc.other x hxd hxi] at hde
          exact ⟨hdir, de, hde, rfl, hne⟩
  refine ⟨hs.toShaped.create hc hn, ?_, ?_, ?_, ?_⟩
  · rw [hc.type_eq hri]
    exact hs.root
  · intro x hx
    by_cases hxi : x = i
    · have hsubs : subs s' i = 0 := by
        unfold subs
        rw [hc.made_names]
        rfl
      rw [hxi, hnamed i hc.inum.1, if_pos rfl, hi0, hsubs, if_neg hri.symm, hc.made.2.1]
      decide
    · rw [hc.type_eq hxi] at hx
      have hlinks := hs.links x hx
      rw [hnamed x (hs.inside x hx).1, if_neg (Ne.symm hxi)]
      by_cases hxd : x = d
      · grind [hc.subs_dir, hs.node_zero, hc.nlink_dir]
      · grind [subs_congr, hc.other]
  · grind [hc.type_eq, hs.free]
  · intro x q hx hdir hq
    by_cases hxi : x = i
    · have hents := hc.made.2.2
      rw [hxi] at hdir hq
      rw [if_pos (hc.made.1.symm.trans hdir)] at hents
      unfold Node.parent at hq
      rw [hents] at hq
      obtain rfl : d = q := Option.some.inj hq
      exact ne_free_of_dir hnew.type
    · grind [hnew.parent, hold.parent, hc.other, hc.type_eq, hs.parent, hc.free]

theorem Sane.link (hl : Linked s s' t d i name)
    (hG : ∀ n ∈ t, Unorphaned n.1 n.2) (hn : s'.ninodes = s.ninodes)
    (hcwd : ∀ q, cwdOf s' q = cwdOf s q) : Sane s' := by
  obtain ⟨p, l, l', hold, hadd, hnew⟩ := hl.names_dir
  have hdin := hs.inside d (ne_free_of_dir hold.type)
  have hiin := hs.inside i hl.type.1
  have hnamed : ∀ x, x ≠ 0 → named s' x = named s x + if i = x then 1 else 0 :=
    fun x hx => hl.named hn hdin.2 hiin.2 hx
  have htype := hl.type_eq
  have hparent : ∀ x, (s'.node x).type = .dir → (s'.node x).parent = (s.node x).parent := by
    grind [hnew.parent, hold.parent, hl.type, hl.other]
  have hreach : ∀ x, Reachable s' x → (s'.node x).type = .dir → Reachable s x := by
    intro x hx
    induction hx with
    | root => exact fun _ => .root
    | cwd hq => exact fun _ => .cwd ((hcwd _).symm.trans hq)
    | @step x y _ he ih =>
      intro hy
      obtain ⟨hdir, de, hde, rfl, hne⟩ := he
      have hxs := ih hdir
      rw [htype] at hdir hy
      have hxi : x ≠ i := by grind [hl.type]
      refine .step hxs ⟨hdir, de, ?_, rfl, hne⟩
      by_cases hxd : x = d
      · grind [hnew.ents, hold.ents, List.mem_append_left, hadd.mem, hl.type, List.mem_append_right]
      · rw [hl.other x hxd hxi] at hde
        exact hde
  have hsubs : ∀ x, subs s' x = subs s x := by
    intro x
    by_cases hxd : x = d
    · unfold subs
      have hz : ∀ de : Dirent, de.inum = 0 → decide ((s.node de.inum).type = .dir) = false := by
        intro de hde
        rw [hde, hs.node_zero]
        rfl
      rw [hxd, hnew.names, hold.names]
      simp only [htype]
      rw [hadd.countP hz, if_neg]
      · rfl
      · simpa using hl.type.2
    · grind [subs_congr, Node.names_of_ne, hl.type, hl.other]
  refine ⟨hs.toShaped.link hl hn, ?_, ?_, ?_, ?_⟩
  · rw [htype]
    exact hs.root
  · intro x hx
    rw [htype] at hx
    have hlinks := hs.links x hx
    rw [hnamed x (hs.inside x hx).1, hsubs]
    by_cases hxi : x = i
    · obtain ⟨k, hk, hnl⟩ := hl.raises
      have hwrap : (k.node i).nlink ≠ 0xFFFF := hG _ hk
      rw [hnl] at hwrap
      rw [hxi] at hlinks ⊢
      rw [if_pos rfl, hl.inode]
      show _ ≤ ((s.node i).nlink + 1).toNat
      rw [toNat_succ hwrap]
      omega
    · grind [hl.names, hl.other]
  · grind [hl.type, hs.free]
  · grind [hs.parent]

-- ======== a name less

/-- A name is removed and the counts are lowered. -/
theorem Sane.lower (hu : Unlinked s m s' t d i name) : Sane (lowered m i) := by
  obtain ⟨p, l, l', hold, hrem, hnew⟩ := hu.names_dir
  have hdin := hs.inside d (ne_free_of_dir hold.type)
  have hiin := hs.inside i hu.type
  have htype := hu.type_lowered
  have hreach : ∀ x, Reachable (lowered m i) x → Reachable s x := by
    intro x hx
    have hcwd : ∀ q j, cwdOf (lowered m i) q = some j → Reachable s j :=
      fun q j hq => .cwd ((hu.cwd q).symm.trans hq)
    exact hx.mono hcwd fun x y he hx => .step hx (hu.edge he)
  refine ⟨hs.toShaped.lower hu, ?_, ?_, ?_, ?_⟩
  · rw [htype]
    exact hs.root
  · intro x hx
    rw [htype] at hx
    have hlinks := hs.links x hx
    have hnamed := hu.named hdin.2 hiin.2 (hs.inside x hx).1
    by_cases hxd : x = d
    · obtain ⟨_, _, _, -, -, hnode⟩ := hu.names
      rw [hxd] at hlinks hnamed ⊢
      rw [if_neg hu.ne] at hnamed
      have hsubs := hu.subs_lowered hs.node_zero
      rw [hu.node_ne, hnode]
      dsimp only
      by_cases hdir : (s.node i).type = .dir
      · rw [if_pos hdir] at hsubs ⊢
        have hne : (s.node d).nlink ≠ 0 := by
          intro hz
          rw [hz] at hlinks
          change _ ≤ 0 at hlinks
          omega
        rw [toNat_pred hne]
        omega
      · grind
    · grind [subs_congr, hu.names_eq, hu.node_inode, toNat_pred, hu.links, hu.node_other]
  · intro x hx hfree
    rw [htype] at hfree
    have hnamed := hu.named hdin.2 hiin.2 hx
    have := hs.free x hx hfree
    omega
  · intro x q hx hdir hq
    rw [htype] at hdir ⊢
    refine hs.parent x q (hreach x hx) hdir ?_
    by_cases hxd : x = d
    · rw [hxd, hu.node_ne, hnew.parent] at hq
      rw [hxd, hold.parent]
      exact hq
    · by_cases hxi : x = i
      · rw [hxi, hu.node_inode] at hq
        rw [hxi]
        exact hq
      · rw [hu.node_other hxd hxi] at hq
        exact hq

/-- The directory may be freed before the count is lowered; the result is
the same. -/
theorem Sane.unlink (hu : Unlinked s m s' t d i name)
    (hG : ∀ n ∈ t, Unorphaned n.1 n.2) (hn : s'.ninodes = s.ninodes)
    (hcwd : ∀ q, cwdOf s' q = cwdOf s q) : Sane s' := by
  have hlow := hs.lower hu
  have hcwd' : ∀ q j, cwdOf s' q = some j → Reachable (lowered m i) j := by
    intro q j hq
    exact .cwd (((hu.cwd q).trans (hcwd q).symm).trans hq)
  have hn' : s'.ninodes = (lowered m i).ninodes := hn.trans hu.ninodes.symm
  obtain ⟨node', hfree, hnode⟩ := hu.put
  cases hfree with
  | none => exact hlow.moved hn' hnode hcwd'
  | freed e hinum hnl halloc =>
    have horphan : Unorphaned (.freed e) m := hG _ List.mem_cons_self
    have htree : SameTree m (lowered m i) := by
      intro x
      by_cases hxi : x = i
      · rw [hxi, show (lowered m i).node i = _ from withNode_self m i _]
        exact ⟨rfl, rfl⟩
      · rw [show (lowered m i).node x = m.node x from withNode_of_ne m _ hxi]
        exact ⟨rfl, rfl⟩
    refine hlow.freed (i := d) ?_ ?_ ?_ hn' ?_ hcwd'
    · rw [hu.node_ne]; exact hnl
    · rw [hu.node_ne]; exact halloc
    · intro x hx hxd hdir
      have hxm : Reachable m x := hx.congr htree fun _ => rfl
      rw [(htree x).1] at hdir
      unfold Node.parent
      rw [(htree x).2]
      subst hinum
      exact horphan x hxm hxd hdir
    · rw [hnode, hu.node_ne]
      unfold lowered withNode
      dsimp only
      rw [update_of_ne hu.ne, update_comm hu.ne.symm]

-- ======== runs

theorem Sane.change (hc : Change s s' t)
    (hn : s'.ninodes = s.ninodes) (hG : ∀ n ∈ t, Unorphaned n.1 n.2) : Sane s' := by
  cases hc with
  | same hnode hcwd => exact hs.moved hn hnode fun q j hq => .cwd ((hcwd q).symm.trans hq)
  | put i hf hcwd => exact hs.put hf hG hn fun q j hq => .cwd ((hcwd q).symm.trans hq)
  | leave p o i hf ho hcwd =>
    refine hs.put hf hG hn fun q j hq => ?_
    rw [hcwd] at hq
    by_cases hqp : q = p
    · rw [if_pos hqp] at hq
      exact (ho j hq).1
    · rw [if_neg hqp] at hq
      exact .cwd hq
  | fork p np hnode hcwd =>
    refine hs.moved hn hnode fun q j hq => ?_
    rw [hcwd] at hq
    by_cases hqp : q = np
    · rw [if_pos hqp] at hq
      exact .cwd hq
    · rw [if_neg hqp] at hq
      exact .cwd hq
  | scrap i hi hi' _ hother hcwd => exact hs.scrap hi hi' hother hn hcwd
  | create d i name type hc hcwd => exact hs.create hc hG hn hcwd
  | link d i name hl hcwd => exact hs.link hl hG hn hcwd
  | unlink m d i name hu hcwd => exact hs.unlink hu hG hn hcwd

end

/-- Any calls by any processes, from a disk in order, in which nothing that
is freed is the `..` of a directory in reach. -/
def NamedCalls : Notes Note Vfs → Vfs → Prop :=
  Reach Unorphaned (fun s => Booted s ∧ Sane s) Call.prog

section

variable {s : Vfs} {n : Notes Note Vfs}

theorem NamedCalls.sane (h : NamedCalls n s) : Rest s ∧ Sane s := by
  refine Reach.invariant (I := fun _ s => Rest s ∧ Sane s) (fun _ hb => ⟨hb.1.rest, hb.2⟩) ?_ h
  intro c n s r s' t hrs hrun hG
  have hdone := hrs.1.prog hrun
  refine ⟨hdone.rest, ?_⟩
  exact hdone.effects.invariant (G := Unorphaned)
    (fun s s' t hc hn hG hs => hs.change hc hn hG) hG hrs.2

/-- No dangling entry: if nothing is freed that is the `..` of a directory
in reach, and no link count wraps, every entry of a directory that some
process can reach names an allocated inode, and no call panics in `ilock`
for lack of a type. -/
theorem no_dangling_entry (h : NamedCalls n s) : (∀ x, Reachable s x → (s.node x).type = .dir →
      ∀ de ∈ (s.node x).ents, de.inum ≠ 0 → (s.node de.inum).type ≠ .free)
      ∧ ∀ c e, Call.prog c s = .error e → e ≠ .panic "ilock: no type" := by
  obtain ⟨hr, hs⟩ := h.sane
  constructor
  · intro x hx hdir de hde hne
    exact hs.good.entries x _ hx ⟨hdir, de, hde, rfl, hne⟩
  · intro c e herr
    exact (wpn_prog (E := (· ≠ noType)) (fun _ hx => hx) hr (.inr hs.good) c).error herr

end

-- ======== two directories

/-- `/a` and `/a/b`, both unlinked while `/a/b` is a current directory. -/
def orphanDir : List (ProcId × Call) :=
  [(0, .mkdir (ascii ['/', 'a']) fun _ => true),
    (0, .mkdir (ascii ['/', 'a', '/', 'b']) fun _ => true),
    (0, .chdir (ascii ['/', 'a', '/', 'b'])),
    (0, .unlink (ascii ['/', 'a', '/', 'b'])),
    (0, .unlink (ascii ['/', 'a']))]

theorem bootFs_sane : Sane bootFs := by
  refine ⟨bootFs_shaped, rfl, ?_, fun i _ _ => named_bootFs i, ?_⟩
  · intro i hi
    rw [named_bootFs, eq_one_of_bootFs hi]
    decide
  · intro x p _ hdir hp
    rw [eq_one_of_bootFs (ne_free_of_dir hdir)] at hp
    obtain rfl : 1 = p := Option.some.inj hp
    decide

/-- The `..` of the current directory names a free inode, and looking it
up panics. -/
theorem dangling_dotdot : ∃ n s, FileCalls n s ∧ Sane bootFs
    ∧ (∃ x, Reachable s x ∧ (s.node x).type = .dir ∧ ∃ de ∈ (s.node x).ents, de.inum ≠ 0
        ∧ (s.node de.inum).type = .free)
    ∧ Call.prog (0, .open (ascii ['.', '.', '/', 'x']) 0 fun _ => true) s
      = .error (.panic "ilock: no type") := by
  obtain ⟨n, s, hr, hcwd, hdir, hents, hfree, hopen⟩ := bootFs_calls.played (P := fun _ s =>
    cwdOf s 0 = some 3 ∧ (s.node 3).type = .dir ∧ ⟨2, dotdot⟩ ∈ (s.node 3).ents
      ∧ (s.node 2).type = .free
      ∧ (match Call.prog (0, .open (ascii ['.', '.', '/', 'x']) 0 fun _ => true) s with
          | .error e => some e
          | .ok _ => none) = some (.panic "ilock: no type"))
    (fun _ _ _ _ _ => trivial) orphanDir (by decide +kernel)
  refine ⟨n, s, hr, bootFs_sane, ⟨3, .cwd hcwd, hdir, ⟨2, dotdot⟩, hents, by decide, hfree⟩, ?_⟩
  grind [Option.some.inj]

/-- A directory is made, and a file in it is unlinked while it is open. -/
def keepOpen : List (ProcId × Call) :=
  [(0, .mkdir (ascii ['/', 'a']) fun _ => true),
    (0, .open (ascii ['/', 'a', '/', 'f']) 0x200 fun _ => true),
    (0, .unlink (ascii ['/', 'a', '/', 'f']))]

/-- A note of a step that frees nothing and wraps no count. -/
def Note.plain : Note × Vfs → Bool
  | (.freed _, _) => false
  | (.raises i, m) => (m.node i).nlink != 0xFFFF
  | (.adds _, _) => true

theorem Note.plain_unorphaned {k : Note × Vfs} (h : Note.plain k = true) : Unorphaned k.1 k.2 := by
  obtain ⟨k, m⟩ := k
  cases k with
  | freed e => cases h
  | raises i => exact bne_iff_ne.mp h
  | adds d => trivial

theorem no_dangling_entry_open : ∃ n s, NamedCalls n s ∧ (s.node 3).nlink = 0 ∧ Reachable s 2
    ∧ (∀ de ∈ (s.node 2).ents, de.inum ≠ 0 → (s.node de.inum).type ≠ .free) := by
  have hboot : NamedCalls [] bootFs := .init ⟨bootFs_booted, bootFs_sane⟩
  obtain ⟨n, s, hr, -, hnl, hroot, hents, hdir⟩ := hboot.played (P := fun n s =>
    n.all Note.plain = true ∧ (s.node 3).nlink = 0 ∧ (s.node 1).type = .dir
      ∧ ⟨2, ascii ['a']⟩ ∈ (s.node 1).ents ∧ (s.node 2).type = .dir)
    (fun _ _ h k hk => Note.plain_unorphaned (List.all_eq_true.mp h.1 k hk)) keepOpen
    (by decide +kernel)
  have hreach : Reachable s 2 := .step .root ⟨hroot, ⟨2, ascii ['a']⟩, hents, rfl, by decide⟩
  exact ⟨n, s, hr, hnl, hreach, (no_dangling_entry hr).1 2 hreach hdir⟩

end Vfs

end GemOS
