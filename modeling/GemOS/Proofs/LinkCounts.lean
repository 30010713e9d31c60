/-
Link counts are exact, as long as no entry is written into a directory
without links and no count passes the range of a `short`.

The entries that count are the names and the `..` of the directories with
links (`kids`). Directories without links are empty, so that `named`, which
looks at all directories, is the number of names in those with links. The
directories with links are a tree: each but the root has one name, in the
directory its `..` names. Hence a directory that is removed loses its only
link, and its parent keeps one.
-/
import GemOS.Proofs.Names

namespace GemOS

open Function Prog

namespace Vfs

/-- A directory with links. -/
def Node.Live (d : Node) : Prop := d.type = .dir ∧ d.nlink ≠ 0

instance (d : Node) : Decidable d.Live := inferInstanceAs (Decidable (_ ∧ _))

/-- The links of an allocated inode. -/
def Node.links (d : Node) : Nat :=
  if d.type = .free then 0 else d.nlink.toNat

/-- Is the inode a directory with links whose `..` is `i`? -/
def Node.kid (i : Nat) (d : Node) : Nat :=
  if d.Live ∧ d.parent = some i then 1 else 0

/-- How many directories with links have the inode as `..`. -/
def kids (s : Vfs) (i : Nat) : Nat :=
  tally (Finset.range s.ninodes) (Node.kid i) s.node

/-- What every change keeps. -/
structure Exact (s : Vfs) : Prop extends Shaped s where
  counts : ∀ i, i ≠ 0 → (s.node i).links = named s i + kids s i
  small : ∀ i, (s.node i).links < 2 ^ 15
  root : (s.node rootino).Live ∧ (s.node rootino).parent = some rootino ∧ named s rootino = 0
  tree : ∀ c, (s.node c).Live → c ≠ rootino → named s c = 1
    ∧ ∃ p, (s.node c).parent = some p ∧ (s.node p).Live ∧ ∃ de ∈ (s.node p).names, de.inum = c
  empty : ∀ d, ¬(s.node d).Live → ∀ de ∈ (s.node d).names, de.inum = 0

/-- An entry is written only into a directory with links, and a link count
is raised only within the range of a `short`. -/
def Counted : Note → Vfs → Prop
  | .freed _, _ => True
  | .raises i, m => (m.node i).nlink < 0x7FFF
  | .adds d, m => (m.node d).nlink ≠ 0

section

variable {d : Node} {x : Nat}

theorem Node.links_of_ne (h : d.type ≠ .free) : d.links = d.nlink.toNat := if_neg h

theorem Node.Live.links (h : d.Live) :
    d.links = d.nlink.toNat := Node.links_of_ne (ne_free_of_dir h.1)

theorem Node.not_live_of_links (h : d.links = 0) : ¬d.Live := by
  intro hl
  rw [hl.links] at h
  exact hl.2 (UInt16.toNat.inj h)

theorem Node.kid_of_not_live (i : Nat) (h : ¬d.Live) : d.kid i = 0 := if_neg fun hk => h hk.1

theorem Node.Live.kid {p : Nat} (h : d.Live) (hp : d.parent = some p) (x : Nat) :
    d.kid x = if p = x then 1 else 0 := by
  unfold Node.kid
  simp only [h, hp, true_and, Option.some.injEq]

/-- An empty directory names nothing. -/
theorem Node.count_of_empty (h : ∀ de ∈ d.names, de.inum = 0) (hx : x ≠ 0) : d.count x = 0 := by
  unfold Node.count
  rw [List.countP_eq_zero]
  intro de hde
  rw [h de hde]
  simpa using hx.symm

theorem Node.live_of_links (h : d.type = .dir) (hl : d.links ≠ 0) : d.Live := by
  refine ⟨h, fun hz => hl ?_⟩
  rw [Node.links_of_ne (ne_free_of_dir h), hz]
  rfl

theorem Node.Live.links_ne (h : d.Live) : d.links ≠ 0 :=
  fun hz => Node.not_live_of_links hz h

end

section

variable {s s' m : Vfs} {t : Notes Note Vfs} {d i x : Nat} {name : Name} {type : IType}

/-- A directory that names an inode has links. -/
theorem Exact.live_of_mem (hs : Exact s) {de : Dirent}
    (hde : de ∈ (s.node d).names) (hne : de.inum ≠ 0) : (s.node d).Live := by
  by_contra hdead
  exact hne (hs.empty d hdead de hde)

/-- An inode without links becomes or stays free. -/
theorem Exact.cleared (hs : Exact s) (hn : s'.ninodes = s.ninodes) (hlinks : (s.node i).links = 0)
    (hself : (s'.node i).type = .free) (hother : ∀ x, x ≠ i → s'.node x = s.node x) : Exact s' := by
  have hdead := Node.not_live_of_links hlinks
  have hself' : ¬(s'.node i).Live := fun hl => ne_free_of_dir hl.1 hself
  have hnamed : ∀ x, x ≠ 0 → named s' x = named s x := by
    intro x hx
    unfold named
    rw [hn]
    refine tally_congr fun y _ => ?_
    by_cases hy : y = i
    · rw [hy, Node.count_of_empty (hs.empty i hdead) hx, Node.count_of_ne x (ne_dir_of_free hself)]
    · rw [hother y hy]
  have hkids : ∀ x, kids s' x = kids s x := by
    intro x
    unfold kids
    rw [hn]
    refine tally_congr fun y _ => ?_
    by_cases hy : y = i
    · rw [hy, Node.kid_of_not_live x hdead, Node.kid_of_not_live x hself']
    · rw [hother y hy]
  have hlive : ∀ x, (s'.node x).Live → x ≠ i := by
    intro x hx heq
    exact hself' (heq ▸ hx)
  have hlive' : ∀ x, (s.node x).Live → x ≠ i := by
    intro x hx heq
    exact hdead (heq ▸ hx)
  have hlinks' : ∀ x, (s'.node x).links = (s.node x).links := by
    intro x
    by_cases hx : x = i
    · rw [hx, hlinks]
      exact if_pos hself
    · rw [hother x hx]
  refine ⟨hs.toShaped.cleared hn hself hother, ?_, ?_, ?_, ?_, ?_⟩
  · grind [hs.counts]
  · intro x
    rw [hlinks']
    exact hs.small x
  · rw [hother rootino (hlive' _ hs.root.1), hnamed rootino one_ne_zero]
    exact hs.root
  · intro c hc hroot
    have hci := hlive c hc
    rw [hother c hci] at hc ⊢
    obtain ⟨hone, p, hp, hpl, de, hde, heq⟩ := hs.tree c hc hroot
    rw [hnamed c (hs.inside c (ne_free_of_dir hc.1)).1]
    refine ⟨hone, p, hp, ?_⟩
    rw [hother p (hlive' p hpl)]
    exact ⟨hpl, de, hde, heq⟩
  · grind [Node.names_of_ne, hs.empty]

/-- Only current directories change. -/
theorem Exact.congr (hs : Exact s) (hn : s'.ninodes = s.ninodes)
    (hnode : s'.node = s.node) : Exact s' := by
  have hnamed : ∀ x, named s' x = named s x := by
    intro x
    unfold named
    rw [hn, hnode]
  have hkids : ∀ x, kids s' x = kids s x := by
    intro x
    unfold kids
    rw [hn, hnode]
  refine ⟨hs.toShaped.congr hn hnode, ?_, ?_, ?_, ?_, ?_⟩
  · intro x hx
    rw [hnode, hnamed, hkids]
    exact hs.counts x hx
  · rw [hnode]; exact hs.small
  · rw [hnode, hnamed]; exact hs.root
  · intro c
    rw [hnode, hnamed]
    exact hs.tree c
  · rw [hnode]; exact hs.empty

/-- `iput`, which may free the inode. -/
theorem Exact.put (hs : Exact s) (hf : Freeing s i t s'.node)
    (hn : s'.ninodes = s.ninodes) : Exact s' := by
  generalize hnode : s'.node = node' at hf
  cases hf with
  | none => exact hs.congr hn hnode
  | freed e hinum hnl halloc =>
    refine hs.cleared (i := i) hn ?_ ?_ ?_
    · rw [Node.links_of_ne halloc, hnl]
      rfl
    · rw [hnode, update_self]
      rfl
    · intro x hx
      rw [hnode, update_of_ne hx]

-- ======== a new name

/-- Directory `d` gets a name for inode `i`, which may be new. -/
structure Grown (s s' : Vfs) (d i : Nat) (name : Name) : Prop where
  ninodes : s'.ninodes = s.ninodes
  names : ∃ p l l', HasNames (s.node d) d p l ∧ Added ⟨i, name⟩ l l' ∧ HasNames (s'.node d) d p l'
  named : ∀ x, x ≠ 0 → named s' x = named s x + if i = x then 1 else 0
  ne : d ≠ i
  inum : i ≠ 0 ∧ i < s.ninodes
  was : (s.node i).type ≠ .dir
  type : (s'.node i).type ≠ .free
  made : (s'.node i).type = .dir → (s.node i).links = 0 ∧ HasNames (s'.node i) i d []
  live : (s.node d).Live
  links : (s'.node i).links = (s.node i).links + 1
  linksDir : (s'.node d).links = (s.node d).links + if (s'.node i).type = .dir then 1 else 0
  small : (s'.node i).links < 2 ^ 15 ∧ (s'.node d).links < 2 ^ 15
  other : ∀ x, x ≠ d → x ≠ i → s'.node x = s.node x

section

variable (hg : Grown s s' d i name)

include hg

theorem Grown.live_dir : (s'.node d).Live := by
  obtain ⟨p, l, l', -, -, hnew⟩ := hg.names
  have := hg.linksDir
  have := hg.live.links_ne
  exact Node.live_of_links hnew.type (by omega)

theorem Grown.type_eq (hx : x ≠ i) : (s'.node x).type = (s.node x).type := by
  by_cases hxd : x = d
  · rw [hxd, hg.live_dir.1, hg.live.1]
  · rw [hg.other x hxd hx]

theorem Grown.parent_eq (hx : x ≠ i) : (s'.node x).parent = (s.node x).parent := by
  by_cases hxd : x = d
  · obtain ⟨p, l, l', hold, -, hnew⟩ := hg.names
    rw [hxd, hold.parent, hnew.parent]
  · rw [hg.other x hxd hx]

theorem Grown.live_iff (hx : x ≠ i) : (s'.node x).Live ↔ (s.node x).Live := by
  by_cases hxd : x = d
  · rw [hxd]
    exact ⟨fun _ => hg.live, fun _ => hg.live_dir⟩
  · rw [hg.other x hxd hx]

theorem Grown.kids (hd : d < s.ninodes) : kids s' x = kids s x
      + if (s'.node i).type = .dir ∧ d = x then 1 else 0 := by
  obtain ⟨p, l, l', hold, -, hnew⟩ := hg.names
  have htwo := tally_two s s' (Node.kid x) hd hg.inum.2 hg.ne hg.ninodes hg.other
  rw [hg.live.kid hold.parent, hg.live_dir.kid hnew.parent,
    Node.kid_of_not_live x fun hl => hg.was hl.1] at htwo
  unfold Vfs.kids
  by_cases hdir : (s'.node i).type = .dir
  · have hlive : (s'.node i).Live := by
      have := hg.links
      exact Node.live_of_links hdir (by omega)
    rw [hlive.kid (hg.made hdir).2.parent] at htwo
    simp only [hdir, true_and]
    omega
  · rw [Node.kid_of_not_live x fun hl => hdir hl.1] at htwo
    simp only [hdir, false_and, if_false]
    omega

end

theorem Exact.grow (hs : Exact s) (hs' : Shaped s') (hg : Grown s s' d i name) : Exact s' := by
  obtain ⟨p, l, l', hold, hadd, hnew⟩ := hg.names
  have hdin := hs.inside d (ne_free_of_dir hold.type)
  have hri : rootino ≠ i := by
    intro heq
    exact hg.was (heq ▸ hs.root.1.1)
  have hkids := fun x => hg.kids (x := x) hdin.2
  refine ⟨hs', ?_, ?_, ?_, ?_, ?_⟩
  · intro x hx
    have hcounts := hs.counts x hx
    rw [hg.named x hx, hkids]
    by_cases hxi : x = i
    · rw [hxi] at hcounts ⊢
      rw [hg.links, if_pos rfl, if_neg fun h => hg.ne h.2]
      omega
    · grind [hg.linksDir, hg.other]
  · intro x
    by_cases hxi : x = i
    · rw [hxi]; exact hg.small.1
    · by_cases hxd : x = d
      · rw [hxd]; exact hg.small.2
      · rw [hg.other x hxd hxi]
        exact hs.small x
  · grind [hg.live_iff, hg.parent_eq, hg.named, hs.root]
  · intro c hc hroot
    by_cases hci : c = i
    · -- the new directory
      rw [hci] at hc ⊢
      have hfresh := hs.counts i hg.inum.1
      rw [(hg.made hc.1).1] at hfresh
      rw [hg.named i hg.inum.1, if_pos rfl]
      refine ⟨by omega, d, (hg.made hc.1).2.parent, hg.live_dir, ⟨i, name⟩, ?_, rfl⟩
      rw [hnew.names]
      exact hadd.self_mem
    · rw [hg.live_iff hci] at hc
      have hcin := hs.inside c (ne_free_of_dir hc.1)
      obtain ⟨hone, q, hq, hql, de, hde, heq⟩ := hs.tree c hc hroot
      rw [hg.named c hcin.1, if_neg (Ne.symm hci), hg.parent_eq hci]
      have hqi : q ≠ i := fun h => hg.was (h ▸ hql.1)
      refine ⟨hone, q, hq, (hg.live_iff hqi).mpr hql, de, ?_, heq⟩
      by_cases hqd : q = d
      · grind [hold.names, hnew.names, hadd.mem_of_mem]
      · rw [hg.other q hqd hqi]
        exact hde
  · intro x hx de hde
    by_cases hxi : x = i
    · rw [hxi] at hx hde
      by_cases hdir : (s'.node i).type = .dir
      · rw [(hg.made hdir).2.names] at hde
        cases hde
      · rw [Node.names_of_ne hdir] at hde
        cases hde
    · grind [hg.live_dir, hg.other, hs.empty]

/-- A count that is raised within the range of a `short`. -/
theorem toNat_raised {n : UInt16} (h : n < 0x7FFF) :
    (n + 1).toNat = n.toNat + 1 ∧ (n + 1).toNat < 2 ^ 15 := by
  have hlt : n.toNat < 32767 := UInt16.lt_iff_toNat_lt.mp h
  have hne : n ≠ 0xFFFF := by
    intro heq
    rw [heq] at hlt
    exact absurd hlt (by decide)
  rw [toNat_succ hne]
  omega

/-- A directory that an entry is written into has links. -/
theorem live_of_adds (hG : ∀ n ∈ t, Counted n.1 n.2) (htype : (s.node d).type = .dir)
    (h : ∃ k, (Note.adds d, k) ∈ t ∧ k.node d = s.node d) : (s.node d).Live := by
  obtain ⟨k, hk, hkd⟩ := h
  have hnl : (k.node d).nlink ≠ 0 := hG _ hk
  exact ⟨htype, hkd ▸ hnl⟩

variable (hs : Exact s)

include hs

theorem Exact.create (hc : Created s s' t d i name type)
    (hG : ∀ n ∈ t, Counted n.1 n.2) (hn : s'.ninodes = s.ninodes) : Exact s' := by
  obtain ⟨p, l, l', hold, hadd, hnode⟩ := hc.names
  have hlive := live_of_adds hG hold.type hc.adds
  have hdir : (s'.node d).type = .dir := by
    rw [hnode]; exact hold.type
  have hlinks : (s'.node i).links = 1 := by
    rw [Node.links_of_ne (by rw [hc.made.1]; exact hc.type_ne), hc.made.2.1]
    rfl
  have hzero : (s.node i).links = 0 := if_pos hc.free
  have hd : (s'.node d).links = (s.node d).links + (if type = .dir then 1 else 0)
      ∧ (s'.node d).links < 2 ^ 15 := by
    have hsmall := hs.small d
    rw [hlive.links] at hsmall ⊢
    rw [Node.links_of_ne (ne_free_of_dir hdir), hnode]
    dsimp only
    by_cases ht : type = .dir
    · obtain ⟨k, hk, hnl⟩ := hc.raises ht
      have hraise : (k.node d).nlink < 0x7FFF := hG _ hk
      rw [hnl] at hraise
      rw [if_pos ht, if_pos ht]
      exact toNat_raised hraise
    · rw [if_neg ht, if_neg ht, UInt16.add_zero]
      exact ⟨rfl, hsmall⟩
  suffices hg : Grown s s' d i name from hs.grow (hs.toShaped.create hc hn) hg
  refine ⟨hn, hc.names_dir, ?_, hc.ne, hc.inum, ?_, ?_, ?_, hlive, ?_, ?_, ⟨?_, hd.2⟩, hc.other⟩
  · intro x hx
    exact hc.named hn (hs.inside d (ne_free_of_dir hold.type)).2 hx
  · exact ne_dir_of_free hc.free
  · rw [hc.made.1]
    exact hc.type_ne
  · intro ht
    refine ⟨hzero, ht, ?_⟩
    rw [hc.made.2.2, if_pos (hc.made.1.symm.trans ht), List.append_nil]
  · rw [hlinks, hzero]
  · rw [hc.made.1]
    exact hd.1
  · rw [hlinks]
    decide

theorem Exact.link (hl : Linked s s' t d i name)
    (hG : ∀ n ∈ t, Counted n.1 n.2) (hn : s'.ninodes = s.ninodes) : Exact s' := by
  obtain ⟨p, l, l', hold, hadd, hnode⟩ := hl.names
  have hlive := live_of_adds hG hold.type hl.adds
  have hiin := hs.inside i hl.type.1
  have hlinks : (s'.node i).links = (s.node i).links + 1 ∧ (s'.node i).links < 2 ^ 15 := by
    obtain ⟨k, hk, hki⟩ := hl.raises
    have hraise : (k.node i).nlink < 0x7FFF := hG _ hk
    rw [hki] at hraise
    rw [Node.links_of_ne (by rw [hl.type_eq]; exact hl.type.1),
      Node.links_of_ne hl.type.1, hl.inode]
    exact toNat_raised hraise
  have hd : (s'.node d).links = (s.node d).links := by
    rw [hnode]
    rfl
  have hndir : (s'.node i).type ≠ .dir := by
    rw [hl.type_eq]
    exact hl.type.2
  suffices hg : Grown s s' d i name from hs.grow (hs.toShaped.link hl hn) hg
  refine ⟨hn, hl.names_dir, ?_, hl.ne, hiin, hl.type.2, ?_,
    fun h => (hndir h).elim, hlive, hlinks.1, ?_, ⟨hlinks.2, ?_⟩, hl.other⟩
  · intro x hx
    exact hl.named hn (hs.inside d (ne_free_of_dir hold.type)).2 hiin.2 hx
  · rw [hl.type_eq]
    exact hl.type.1
  · rw [hd, if_neg hndir, Nat.add_zero]
  · rw [hd]
    exact hs.small d

-- ======== a name less

section

variable (hu : Unlinked s m s' t d i name)

include hu

/-- The directory that names inode `i` has links. -/
theorem Exact.unlink_live : (s.node d).Live := by
  exact hs.live_of_mem hu.mem hu.inum

theorem Exact.unlink_ne_root : i ≠ rootino := by
  have hdin := hs.inside d (ne_free_of_dir (hs.unlink_live hu).1)
  exact fun heq => names_ne hdin.2 (heq ▸ hs.root.2.2) hu.mem rfl

/-- A directory that is removed has one name, in its parent. -/
theorem Exact.unlink_parent (hdir : (s.node i).type = .dir) :
    named s i = 1 ∧ (s.node i).parent = some d := by
  obtain ⟨hone, q, hq, hql, de, hde, heq⟩ := hs.tree i ⟨hdir, hu.links⟩ (hs.unlink_ne_root hu)
  refine ⟨hone, ?_⟩
  by_contra hne
  have hqd : q ≠ d := by
    intro h
    exact hne (h ▸ hq)
  have hle := add_le_tally (w := Node.count i) (f := s.node)
    (Finset.mem_range.mpr (hs.inside q (ne_free_of_dir hql.1)).2)
    (Finset.mem_range.mpr (hs.inside d (ne_free_of_dir (hs.unlink_live hu).1)).2) hqd
  have hposq : 0 < (s.node q).count i := List.countP_pos_iff.mpr ⟨de, hde, by simpa using heq⟩
  have hposd : 0 < (s.node d).count i := List.countP_pos_iff.mpr ⟨_, hu.mem, by simp⟩
  unfold named at hone
  omega

omit hs in
theorem Unlinked.names_zero : ∀ de ∈ (s.node i).names, de.inum = 0 := by
  intro de hde
  by_cases hdir : (s.node i).type = .dir
  · obtain ⟨q, k, hk, hz⟩ := hu.empty hdir
    rw [hk.names] at hde
    exact hz de hde
  · rw [Node.names_of_ne hdir] at hde
    cases hde

/-- A directory that is removed has no directories in it. -/
theorem Exact.unlink_kids : kids s i = 0 := by
  refine tally_eq_zero.mpr fun c _ => ?_
  refine if_neg fun hk => ?_
  by_cases hroot : c = rootino
  · rw [hroot, hs.root.2.1] at hk
    exact hs.unlink_ne_root hu (Option.some.inj hk.2).symm
  · obtain ⟨-, q, hq, -, de, hde, heq⟩ := hs.tree c hk.1 hroot
    obtain rfl : q = i := Option.some.inj (hq.symm.trans hk.2)
    have hz := hu.names_zero de hde
    rw [heq] at hz
    exact (hs.inside c (ne_free_of_dir hk.1.1)).1 hz

/-- A directory that is removed loses its last link. -/
theorem Exact.unlink_dead : ¬((lowered m i).node i).Live := by
  intro hl
  have hdir : (s.node i).type = .dir := (hu.type_lowered i).symm.trans hl.1
  have hcounts := hs.counts i hu.inum
  rw [Node.links_of_ne hu.type, (hs.unlink_parent hu hdir).1, hs.unlink_kids hu] at hcounts
  refine hl.2 (UInt16.toNat.inj ?_)
  rw [hu.node_inode]
  dsimp only
  rw [toNat_pred hu.links, hcounts]
  rfl

/-- The directory keeps a link. -/
theorem Exact.unlink_links : (m.node d).nlink ≠ 0 ∧ (m.node d).nlink.toNat
      = (s.node d).nlink.toNat - if (s.node i).type = .dir then 1 else 0 := by
  obtain ⟨p, l, l', hold, -, hnode⟩ := hu.names
  have hlive := hs.unlink_live hu
  have hdin := hs.inside d (ne_free_of_dir hold.type)
  have hiin := hs.inside i hu.type
  rw [hnode]
  dsimp only
  by_cases hdir : (s.node i).type = .dir
  · rw [if_pos hdir, if_pos hdir, toNat_pred hlive.2]
    refine ⟨fun hz => ?_, rfl⟩
    have hone : (s.node d).nlink.toNat - 1 = 0 := by
      rw [← toNat_pred hlive.2, hz]
      rfl
    have hcounts := hs.counts d hdin.1
    rw [hlive.links] at hcounts
    have hkid : (s.node i).kid d = 1 := by
      have hi : (s.node i).Live := ⟨hdir, hu.links⟩
      rw [hi.kid (hs.unlink_parent hu hdir).2, if_pos rfl]
    by_cases hroot : d = rootino
    · have hle := add_le_tally (w := Node.kid d) (f := s.node)
        (Finset.mem_range.mpr hdin.2) (Finset.mem_range.mpr hiin.2) hu.ne.symm
      have hself : (s.node d).kid d = 1 := by
        rw [hlive.kid (p := d) (by rw [hroot]; exact hs.root.2.1), if_pos rfl]
      unfold kids at hcounts
      omega
    · have hle := le_tally (w := Node.kid d) (f := s.node) (Finset.mem_range.mpr hiin.2)
      have hnamed := (hs.tree d hlive hroot).1
      unfold kids at hcounts
      omega
  · rw [if_neg hdir, if_neg hdir, UInt16.sub_zero]
    exact ⟨hlive.2, rfl⟩

theorem Exact.unlink_tally (x : Nat) :
    kids s x = kids (lowered m i) x + if (s.node i).type = .dir ∧ d = x then 1 else 0 := by
  obtain ⟨p, l, l', hold, -, hnew⟩ := hu.names_dir
  have hlive := hs.unlink_live hu
  have hdin := hs.inside d (ne_free_of_dir hold.type)
  have hiin := hs.inside i hu.type
  have htwo := tally_two s (lowered m i) (Node.kid x) hdin.2 hiin.2
    hu.ne.symm hu.ninodes fun y hyd hyi => hu.node_other hyd hyi
  have hlive' : (m.node d).Live := ⟨hnew.type, (hs.unlink_links hu).1⟩
  rw [hu.node_ne, hlive.kid hold.parent, hlive'.kid hnew.parent] at htwo
  unfold kids
  by_cases hdir : (s.node i).type = .dir
  · have hi : (s.node i).Live := ⟨hdir, hu.links⟩
    rw [hi.kid (hs.unlink_parent hu hdir).2, Node.kid_of_not_live x (hs.unlink_dead hu)] at htwo
    simp only [hdir, true_and]
    omega
  · rw [Node.kid_of_not_live x fun hl => hdir hl.1,
      Node.kid_of_not_live x fun hl => hdir ?_] at htwo
    · simp only [hdir, false_and, if_false]
      omega
    · rw [← hu.type_lowered i]
      exact hl.1

/-- A name is removed and the counts are lowered. -/
theorem Exact.lower : Exact (lowered m i) := by
  obtain ⟨p, l, l', hold, hrem, hnew⟩ := hu.names_dir
  have hdin := hs.inside d (ne_free_of_dir hold.type)
  have hiin := hs.inside i hu.type
  have htype := hu.type_lowered
  have hnodeD : (lowered m i).node d = m.node d := hu.node_ne
  have hliveD : ((lowered m i).node d).Live := by
    rw [hnodeD]
    exact ⟨hnew.type, (hs.unlink_links hu).1⟩
  -- a directory with links that is left is not the one removed
  have hdead := hs.unlink_dead hu
  have hback : ∀ x, ((lowered m i).node x).Live → (s.node x).Live := by
    grind [hs.unlink_live, hu.node_other]
  have hparent : ∀ x, ((lowered m i).node x).parent = (s.node x).parent := by
    intro x
    by_cases hxd : x = d
    · rw [hxd, hnodeD, hnew.parent, hold.parent]
    · by_cases hxi : x = i
      · rw [hxi, hu.node_inode]
        rfl
      · rw [hu.node_other hxd hxi]
  have hlinks : ∀ x, ((lowered m i).node x).links + (if i = x then 1 else 0)
      + (if (s.node i).type = .dir ∧ d = x then 1 else 0) = (s.node x).links := by
    intro x
    by_cases hxd : x = d
    · have hl := (hs.unlink_links hu).2
      have hlive := hs.unlink_live hu
      have hpos := hlive.links_ne
      rw [hxd, hliveD.links, hlive.links, hnodeD, hl, if_neg hu.ne]
      rw [hlive.links] at hpos
      by_cases hdir : (s.node i).type = .dir
      · rw [if_pos hdir, if_pos ⟨hdir, rfl⟩]
        omega
      · rw [if_neg hdir, if_neg fun h => hdir h.1]
        omega
    · rw [if_neg fun h : _ ∧ d = x => hxd h.2.symm]
      by_cases hxi : x = i
      · have hpos : (s.node i).nlink.toNat ≠ 0 := fun hz => hu.links (UInt16.toNat.inj hz)
        rw [hxi, if_pos rfl, Node.links_of_ne hu.type,
          Node.links_of_ne (by rw [htype]; exact hu.type), hu.node_inode]
        dsimp only
        rw [toNat_pred hu.links]
        omega
      · rw [if_neg (Ne.symm hxi), hu.node_other hxd hxi, Nat.add_zero]
  refine ⟨hs.toShaped.lower hu, ?_, ?_, ?_, ?_, ?_⟩
  · grind [hs.counts, hu.named, hs.unlink_tally]
  · intro x
    have := hs.small x
    have := hlinks x
    omega
  · grind [hs.unlink_ne_root, hu.named, hs.root, hu.node_other]
  · intro c hc hroot
    have hci : c ≠ i := fun heq => hdead (heq ▸ hc)
    have hcs := hback c hc
    have hcin := hs.inside c (ne_free_of_dir hcs.1)
    have hnamed := hu.named hdin.2 hiin.2 hcin.1
    rw [if_neg hci.symm] at hnamed
    obtain ⟨hone, q, hq, hql, de, hde, heq⟩ := hs.tree c hcs hroot
    have hne : de.inum ≠ 0 := by rw [heq]; exact hcin.1
    refine ⟨by omega, q, (hparent c).trans hq, ?_⟩
    by_cases hqd : q = d
    · grind [hold.names, hnew.names, hrem.mem_of_ne]
    · grind [hu.names_zero, hu.node_other]
  · grind [hu.names_eq, hu.names_zero, hu.node_other, hs.empty]

/-- The directory is not freed, as it keeps a link. -/
theorem Exact.unlink (hn : s'.ninodes = s.ninodes) : Exact s' := by
  obtain ⟨node', hfree, hnode⟩ := hu.put
  cases hfree with
  | none => exact (hs.lower hu).congr (hn.trans hu.ninodes.symm) hnode
  | freed e hinum hnl halloc => exact ((hs.unlink_links hu).1 hnl).elim

end

-- ======== runs

theorem Exact.change (hc : Change s s' t)
    (hn : s'.ninodes = s.ninodes) (hG : ∀ n ∈ t, Counted n.1 n.2) : Exact s' := by
  cases hc with
  | same hnode hcwd => exact hs.congr hn hnode
  | put i hf hcwd => exact hs.put hf hn
  | leave p o i hf ho hcwd => exact hs.put hf hn
  | fork p np hnode hcwd => exact hs.congr hn hnode
  | scrap i hi hi' _ hother hcwd => exact hs.cleared hn (if_pos hi) hi' hother
  | create d i name type hc hcwd => exact hs.create hc hG hn
  | link d i name hl hcwd => exact hs.link hl hG hn
  | unlink m d i name hu hcwd => exact hs.unlink hu hn

end

/-- Any calls by any processes, from a disk with exact counts, that write
entries only into directories with links and raise counts only within the
range of a `short`. -/
def CountedCalls : Notes Note Vfs → Vfs → Prop :=
  Reach Counted (fun s => Booted s ∧ Exact s) Call.prog

/-- The entries for an inode, other than `.`, in a directory whose link
count is positive as a `short`. -/
def Node.entries (i : Nat) (d : Node) : Nat :=
  if d.type = .dir ∧ 0 < d.nlink.toInt16 then
    d.ents.countP fun de => de.inum == i && de.name != dot
  else 0

/-- How many entries name the inode. -/
def entries (s : Vfs) (i : Nat) : Nat :=
  tally (Finset.range s.ninodes) (Node.entries i) s.node

section

variable {s : Vfs} {n : Notes Note Vfs} {i : Nat}

theorem CountedCalls.exact (h : CountedCalls n s) : Rest s ∧ Exact s := by
  refine Reach.invariant (I := fun _ s => Rest s ∧ Exact s) (fun _ hb => ⟨hb.1.rest, hb.2⟩) ?_ h
  intro c n s r s' t hrs hrun hG
  have hdone := hrs.1.prog hrun
  refine ⟨hdone.rest, ?_⟩
  exact hdone.effects.invariant (G := Counted)
    (fun s s' t hc hn hG hs => hs.change hc hn hG) hG hrs.2

/-- A small count as a `short`. -/
theorem toInt16_toInt {n : UInt16} (h : n.toNat < 2 ^ 15) : n.toInt16.toInt = n.toNat := by
  show n.toBitVec.toInt = n.toBitVec.toNat
  refine BitVec.toInt_eq_toNat_of_lt ?_
  show 2 * n.toNat < 2 ^ 16
  omega

theorem toInt16_pos {n : UInt16} (h : n.toNat < 2 ^ 15) : 0 < n.toInt16 ↔ n ≠ 0 := by
  have hne : n ≠ 0 ↔ n.toNat ≠ 0 := not_congr ⟨fun h => by rw [h]; rfl, fun h => UInt16.toNat.inj h⟩
  rw [Int16.lt_iff_toInt_lt, toInt16_toInt h, hne]
  show (0 : Int) < n.toNat ↔ _
  omega

theorem entries_eq (hr : Rest s) (hs : Exact s) (hi : i ≠ 0) :
    entries s i = named s i + kids s i := by
  unfold entries named kids
  rw [← tally_add]
  refine tally_congr fun d _ => ?_
  have hsmall := hs.small d
  by_cases hlive : (s.node d).Live
  · rw [hlive.links] at hsmall
    obtain ⟨p, l, hents, -, hdot⟩ := ((hr.base.shape d).dir hlive.1).dots
    have hn : HasNames (s.node d) d p l := ⟨hlive.1, hents⟩
    have hl : l.countP (fun de => de.inum == i && de.name != dot) = (s.node d).count i := by
      unfold Node.count
      rw [hn.names]
      refine List.countP_congr fun de hde => ?_
      have := hdot de hde
      grind
    unfold Node.entries
    rw [if_pos ⟨hlive.1, (toInt16_pos hsmall).mpr hlive.2⟩,
      hlive.kid hn.parent, hents, List.countP_append, hl, Nat.add_comm]
    congr 1
    simp [dots, List.countP_cons, dot, dotdot]
  · have hcount := Node.count_of_empty (hs.empty d hlive) hi
    rw [Node.kid_of_not_live i hlive, hcount]
    refine if_neg fun h => hlive ⟨h.1, ?_⟩
    rw [Node.links_of_ne (ne_free_of_dir h.1)] at hsmall
    exact (toInt16_pos hsmall).mp h.2

/-- Link counts are exact: if entries are written only into directories
with links, and counts are raised only within the range of a `short`, the
link count of every allocated inode is the number of entries other than `.`
for it in directories with a positive link count. An inode other than the
root is allocated just as long as it has such an entry or a reference. -/
theorem link_counts_exact (h : CountedCalls n s) : (∀ i, (s.node i).type ≠ .free →
      (s.node i).nlink.toInt16.toInt = entries s i)
      ∧ ∀ i, i ≠ 0 → ((s.node i).type ≠ .free ↔ 0 < entries s i
          ∨ ∃ e, (s.itable e).inum = i ∧ 0 < (s.itable e).ref) := by
  obtain ⟨hr, hs⟩ := h.exact
  have hcount : ∀ i, i ≠ 0 → entries s i = (s.node i).links := by
    intro i hi
    rw [entries_eq hr hs hi, hs.counts i hi]
  have hsolid : ∀ e, (s.itable e).ref = solid (now s) s e := by
    intro e
    rw [hr.base.inode e, Multiset.count_zero]
    exact add_zero _
  constructor
  · intro i hi
    have hsmall := hs.small i
    rw [hcount i (hs.inside i hi).1, Node.links_of_ne hi]
    rw [Node.links_of_ne hi] at hsmall
    exact toInt16_toInt hsmall
  · intro i hi
    rw [hcount i hi]
    constructor
    · intro halloc
      by_cases hnl : (s.node i).nlink = 0
      · grind [hr.base.kept]
      · left
        rw [Node.links_of_ne halloc]
        exact Nat.pos_of_ne_zero fun hz => hnl (UInt16.toNat.inj hz)
    · rintro (hpos | ⟨e, rfl, href⟩) hfree
      · rw [show (s.node i).links = 0 from if_pos hfree] at hpos
        exact absurd hpos (lt_irrefl 0)
      · have hpos : 0 < solid (now s) s e := by
          rw [hsolid] at href
          exact_mod_cast href
        exact hr.base.typed e href (hr.base.loaded e hpos) hfree

end

-- ======== an unlinked directory

/-- A file is made in the current directory, which has been unlinked, and
closed. -/
def makeInUnlinked : List (ProcId × Call) :=
  [(0, .mkdir (ascii ['/', 'd']) fun _ => true), (0, .chdir (ascii ['/', 'd'])),
    (0, .unlink (ascii ['/', 'd'])),
    (0, .open (ascii ['f']) 0x200 fun _ => true),
    (0, .chdir (ascii ['/'])),
    (0, .close 0)]

theorem bootFs_exact : Exact bootFs := by
  refine ⟨bootFs_shaped, ?_, ?_, ?_, ?_, ?_⟩
  · intro i hi
    rw [named_bootFs]
    by_cases h1 : i = 1
    · rw [h1]
      decide +kernel
    · have hz : kids bootFs i = 0 := by
        refine tally_eq_zero.mpr fun d _ => if_neg fun hk => h1 ?_
        have hd := eq_one_of_bootFs (ne_free_of_dir hk.1.1)
        rw [hd] at hk
        exact (Option.some.inj hk.2).symm
      rw [hz, bootFs_node_ne h1]
      rfl
  · intro i
    by_cases h1 : i = 1
    · rw [h1]
      decide
    · rw [bootFs_node_ne h1]
      decide
  · exact ⟨⟨rfl, by decide⟩, rfl, named_bootFs 1⟩
  · intro c hc hroot
    exact (hroot (eq_one_of_bootFs (ne_free_of_dir hc.1))).elim
  · intro d hd de hde
    by_cases h1 : d = 1
    · rw [h1] at hde
      cases hde
    · rw [bootFs_node_ne h1] at hde
      cases hde

/-- The file keeps its link count of one, but the directory that held its
only name is gone; so is the last reference, and nothing frees the file. -/
theorem made_in_unlinked : ∃ n s, FileCalls n s ∧ Exact bootFs
    ∧ (s.node 3).type = .file ∧ (s.node 3).nlink = 1 ∧ entries s 3 = 0
    ∧ ∀ e, (s.itable e).inum = 3 → (s.itable e).ref = 0 := by
  obtain ⟨n, s, hr, hfacts⟩ := bootFs_calls.played (P := fun _ s => (s.node 3).type = .file
    ∧ (s.node 3).nlink = 1 ∧ entries s 3 = 0 ∧ ∀ e, (s.itable e).inum = 3 → (s.itable e).ref = 0)
    (fun _ _ _ _ _ => trivial) makeInUnlinked (by decide +kernel)
  exact ⟨n, s, hr, bootFs_exact, hfacts⟩

/-- A directory with a file in it that has a second name. -/
def linkTwice : List (ProcId × Call) :=
  [(0, .mkdir (ascii ['/', 'd']) fun _ => true),
    (0, .open (ascii ['/', 'd', '/', 'f']) 0x200 fun _ => true),
    (0, .link (ascii ['/', 'd', '/', 'f']) (ascii ['g']) true)]

/-- A note of a step that keeps the counts. -/
def Note.counted : Note × Vfs → Bool
  | (.freed _, _) => true
  | (.raises i, m) => decide ((m.node i).nlink < 0x7FFF)
  | (.adds d, m) => (m.node d).nlink != 0

theorem Note.counted_of {k : Note × Vfs} (h : Note.counted k = true) : Counted k.1 k.2 := by
  obtain ⟨k, m⟩ := k
  cases k with
  | freed e => trivial
  | raises i =>
    have hlt : (m.node i).nlink < 0x7FFF := of_decide_eq_true h
    exact hlt
  | adds d => exact bne_iff_ne.mp h

theorem link_counts_exact_twice : ∃ n s, CountedCalls n s
    ∧ (s.node 3).nlink = 2 ∧ (s.node 3).nlink.toInt16.toInt = entries s 3
    ∧ 0 < (s.itable 2).ref := by
  have hboot : CountedCalls [] bootFs := .init ⟨bootFs_booted, bootFs_exact⟩
  obtain ⟨n, s, hr, -, hne, hnl, href⟩ := hboot.played (P := fun n s => n.all Note.counted = true
    ∧ (s.node 3).type ≠ .free ∧ (s.node 3).nlink = 2 ∧ 0 < (s.itable 2).ref)
    (fun _ _ h k hk => Note.counted_of (List.all_eq_true.mp h.1 k hk)) linkTwice
    (by decide +kernel)
  exact ⟨n, s, hr, hnl, (link_counts_exact hr).1 3 hne, href⟩

end Vfs

end GemOS
