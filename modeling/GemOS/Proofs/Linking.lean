/-
`link` and `unlink`.

`link` raises the link count before it looks up the new name and lowers it
again if that fails; `unlink` lowers the counts and puts the directory in
between. Both hold the inodes whose counts they change, so that a count of
zero frees nothing too early.
-/
import GemOS.Proofs.Creating

namespace GemOS

open Function Prog

namespace Vfs

section

variable {h h' : Holds} {W W' : Multiset InodeId} {s s' s0 : Vfs}
  {e ip dp : InodeId} {i : Nat} {d d' : Node} {E : Halt → Prop} {p : ProcId}
  {g : ProcId → Prop} {t t' : Notes Note Vfs}

theorem withNode_self (s : Vfs) (i : Nat) (d : Node) : (withNode s i d).node i = d := update_self ..

theorem withNode_of_ne (s : Vfs) (d : Node) {x : Nat} (hne : x ≠ i) :
    (withNode s i d).node x = s.node x := update_of_ne hne ..

/-- An inode of an entry that is held changes, but not its type. -/
theorem Base.withNode (hb : Base h W s) (hpos : 0 < (s.itable e).ref)
    (hv : (s.itable e).valid = true) (htype : d.type = (s.ip e).type)
    (hshape : Shape (s.itable e).inum d)
    (hsol : d.nlink = 0 → 0 < solid h s e ∨ (s.ip e).nlink = 0) :
    Base h W (withNode s (s.itable e).inum d) := by
  have halloc := hb.typed e hpos hv
  refine hb.setNode (fun hfree => htype ▸ hfree) (fun _ hn => ?_) hshape
    fun _ => hb.inside _ halloc
  rcases hsol hn with hs | hz
  · exact ⟨e, rfl, hs⟩
  · exact hb.kept _ halloc hz

/-- A link count that is held changes. -/
theorem Base.setNlink (hb : Base h W s) (hsol : 0 < solid h s e) (n : UInt16) :
    Base h W (Vfs.withNode s (s.itable e).inum { s.ip e with nlink := n }) := by
  have hshape := hb.shape (s.itable e).inum
  exact hb.withNode (hb.ref_pos_of_solid hsol) (hb.loaded e hsol) rfl
    ⟨hshape.dir, hshape.other⟩ fun _ => .inl hsol

-- ======== `link`

/-- In `link`, `ip` being the inode that gets another name: its count is
raised and the rest is as in `s`. -/
structure Raised (h : Holds) (ip : InodeId) (W : Multiset InodeId) (s s' : Vfs) : Prop where
  base : Base (h.inode ip) W s'
  node : s'.node = update s.node (s.itable ip).inum
    { s.ip ip with nlink := (s.ip ip).nlink + 1 }
  ninodes : s'.ninodes = s.ninodes
  proc : s'.proc = s.proc
  inum : (s'.itable ip).inum = (s.itable ip).inum
  cwd : ∀ q, cwdOf s' q = cwdOf s q

theorem Raised.walk {s'' : Vfs} (hr : Raised h ip W s s')
    (hc : Cwds h s) (hw : Walk (h.inode ip) s' s'')
    (hb : Base (h.inode ip) W' s'') : Raised h ip W' s s'' where
  base := hb
  node := hw.quiet.node.trans hr.node
  ninodes := hw.quiet.ninodes.trans hr.ninodes
  proc := hw.quiet.proc.trans hr.proc
  inum := (hw.stays ip (solid_inode_pos ..)).1.trans hr.inum
  cwd := fun q => by
    have hc' : Cwds (h.inode ip) s' := fun q => by
      rw [hr.proc]
      exact hc q
    exact (hw.cwdOf hc' q).trans (hr.cwd q)

theorem Raised.ip_nlink (hr : Raised h ip W s s') :
    s'.ip ip = { s.ip ip with nlink := (s.ip ip).nlink + 1 } := by
  unfold Vfs.ip
  rw [hr.inum, hr.node, update_self]
  rfl

/-- The count is lowered again. -/
theorem Raised.lower (hr : Raised h ip W s s') : (Vfs.withNode s' (s'.itable ip).inum
      { s'.ip ip with nlink := (s'.ip ip).nlink - 1 }).node = s.node := by
  rw [hr.ip_nlink, hr.inum]
  unfold Vfs.withNode
  dsimp only
  rw [hr.node, update_idem, UInt16.add_sub_cancel]
  exact update_eq_self ..

theorem Raised.sameTree (hr : Raised h ip W s s') : SameTree s s' := by
  intro x
  rw [hr.node]
  by_cases hx : x = (s.itable ip).inum
  · rw [hx, update_self]; exact ⟨rfl, rfl⟩
  · rw [update_of_ne hx]; exact ⟨rfl, rfl⟩

theorem wpn_setNlink (e : InodeId) (f : UInt16 → UInt16) :
    wpn E (setNlink e f) (fun _ s' t' => t' = [] ∧ s' = Vfs.withNode s (s.itable e).inum
        { s.ip e with nlink := f (s.ip e).nlink }) s :=
  .get_bind (.modify ⟨rfl, rfl⟩)

/-- The call goes on in a state that the name space cannot tell from
`s`. -/
theorem Mid.moved (hm : Mid g s0 t h W s) (hb : Base h' W' s')
    (hw : h'.w = h.w) (ho : h'.o = h.o) (hproc : s'.proc = s.proc)
    (hchange : Change s s' t') (hnin : s'.ninodes = s.ninodes)
    (ht : NoFree t') : Mid g s0 (t ++ t') h' W' s' where
  base := hb
  cwds := fun q => by rw [hw, hproc]; exact hm.cwds q
  slots := fun x hx => by rw [ho, hproc]; exact hm.slots x hx
  idle := by unfold Idle; rw [hproc]; exact hm.idle
  effects := hm.effects.snoc hchange hnin
  frees := fun n hn => (List.mem_append.mp hn).elim (hm.frees n) (ht.freeOk n)

variable (hE : ∀ x, x ≠ noType → E x)

include hE

variable {name : Name} {room : Bool} {off : Nat}

/-- `dirlink` fails and leaves everything, or adds the name. -/
theorem wpn_dirlink {n : Nat} (hb : Base h W s) (hpos : 0 < (s.itable dp).ref) :
    wpn E (dirlink dp name n room) (fun r s' t' =>
      (r = false ∧ t' = [] ∧ Base h W s' ∧ Walk h s s') ∨
      (r = true ∧ (s.ip dp).type = .dir ∧ findName (s.ip dp).ents name = none
        ∧ t' = [(.adds (s.itable dp).inum, s)]
        ∧ ∃ ents, addEntry (s.ip dp).ents ⟨n % 2 ^ 16, name⟩ room
            = some ents ∧ s' = withEnts s dp ents)) s := by
  unfold dirlink
  refine .quiet (wpn_dirlookup hE hb hpos) fun r s1 hr => ?_
  obtain ⟨hdir, hend⟩ := hr
  split
  · obtain ⟨hb1, hq1, hst1, -⟩ := hend
    have hw1 : Walk h s s1 := (Walk.refl h s).step hb hq1 hst1
    refine .quiet (wpn_iput_walk hb1) fun _ s2 hs2 => .pure (.inl ?_)
    obtain ⟨hb2, hq2, hst2⟩ := hs2
    exact ⟨rfl, rfl, hb2, hw1.step hb1 hq2 fun e' _ => hst2 e'⟩
  · obtain ⟨rfl, hfind⟩ : s1 = s ∧ _ := hend
    refine .get_bind ?_
    split
    · next ents hadd =>
      refine .note_bind (.modify_bind (.pure (.inr ?_)))
      exact ⟨rfl, hdir, hfind, rfl, ents, hadd, rfl⟩
    · exact .pure (.inl ⟨rfl, rfl, hb, .refl h s1⟩)

/-- The end of `link` when something went wrong. -/
theorem Mid.linkBad (hm : Mid nobody s0 t h W s) (hr : Raised h ip 0 s s')
    (ht : NoFree t') (hf : h.files = 0) (hi : h.inodes = 0) :
    wpn E (linkBad ip) (fun _ s'' t'' => Done nobody s0 s'' (t ++ (t' ++ t''))) s' := by
  have hsol := solid_inode_pos h s' ip
  have hpos := hr.base.ref_pos_of_solid hsol
  have htyped := hr.base.typed ip hpos (hr.base.loaded ip hsol)
  unfold Vfs.linkBad
  refine .quiet (wpn_ilock hE hr.base hpos (.inr htyped)) fun _ s1 hs1 => ?_
  obtain ⟨hb1, -, hq1, hst1⟩ := hs1
  have hr1 := hr.walk hm.cwds ⟨hq1, fun e _ => hst1 e⟩ hb1
  refine .quiet (wpn_setNlink ip _) fun _ s2 hs2 => ?_
  have hb2 : Base (h.inode ip) 0 s2 := by
    rw [hs2]
    exact hb1.setNlink (solid_inode_pos ..) _
  have hm2 : Mid nobody s0 (t ++ t') (h.inode ip) 0 s2 := by
    refine hm.moved hb2 rfl rfl ?_ (.same ?_ fun q => ?_) ?_ ht
    · rw [hs2]; exact hr1.proc
    · rw [hs2]; exact hr1.lower
    · rw [hs2]; exact hr1.cwd q
    · rw [hs2]; exact hr1.ninodes
  simp only [← List.append_assoc]
  exact hm2.iputStop hf hi

omit hE in
/-- The new name has been written. -/
theorem Raised.linked (hr : Raised h ip {dp} s s')
    (halloc : (s.ip ip).type ≠ .free) (hnd : (s.ip ip).type ≠ .dir)
    (hdir : (s'.ip dp).type = .dir) {ents : List Dirent}
    (hfind : findName (s'.ip dp).ents name = none)
    (hadd : addEntry (s'.ip dp).ents ⟨(s.itable ip).inum, name⟩ room = some ents)
    (hv : (s'.itable dp).valid = true) :
    Base (h.inode ip) {dp} (withEnts s' dp ents) ∧ Linked s (withEnts s' dp ents)
        [(.raises (s.itable ip).inum, s), (.adds (s'.itable dp).inum, s')]
        (s'.itable dp).inum (s.itable ip).inum name := by
  have hpos := hr.base.ref_pos
  have hipos := hr.base.ref_pos_of_solid (solid_inode_pos _ _ ip)
  have hne : (s'.itable dp).inum ≠ (s.itable ip).inum := by
    intro heq
    have htype : (s'.ip dp).type = (s.ip ip).type := by
      unfold Vfs.ip
      rw [heq, hr.node, update_self]
      rfl
    exact hnd (htype.symm.trans hdir)
  have hnode : s.node (s'.itable dp).inum = s'.ip dp := by
    unfold Vfs.ip
    rw [hr.node, update_of_ne hne]
  have hinum := hr.base.inum ip hipos
  rw [hr.inum] at hinum
  obtain ⟨hshape, p, names, names', hold, hadded, hents⟩ :=
    ((hr.base.shape _).dir hdir).added (hr.base.inum dp hpos).1 hfind hinum.2 hadd
  constructor
  · refine hr.base.withNode hpos hv rfl ?_ .inr
    exact ⟨fun _ => hshape, fun hno => (hno hdir).elim⟩
  · refine ⟨⟨halloc, hnd⟩, ⟨p, names, names', ⟨?_, ?_⟩, hadded, ?_⟩, ?_, ?_,
      ⟨s', by simp, hnode.symm⟩, ⟨s, by simp, rfl⟩⟩
    · rw [hnode]; exact hdir
    · rw [hnode]; exact hold
    · rw [hnode, ← hents]
      exact withNode_self ..
    · unfold withEnts
      rw [withNode_of_ne s' _ hne.symm, hr.node, update_self]
      rfl
    · intro x hx hx'
      unfold withEnts
      rw [withNode_of_ne s' _ hx, hr.node, update_of_ne hx']

/-- `link` once it holds the inode and has raised its count. -/
theorem Mid.linkName (hm : Mid nobody s0 t h W s) (hr : Raised h ip {dp} s s')
    (halloc : (s.ip ip).type ≠ .free) (hnd : (s.ip ip).type ≠ .dir)
    (hv : (s'.itable dp).valid = true) (hf : h.files = 0) (hi : h.inodes = 0) : wpn E (do
        let ok ← dirlink dp name (s'.itable ip).inum room
        if ok then
          Vfs.iput dp
          Vfs.iput ip
          return (0 : Int)
        else
          Vfs.iput dp
          Vfs.linkBad ip)
      (fun _ s'' t'' => Done nobody s0 s''
        (t ++ ([(.raises (s.itable ip).inum, s)] ++ t''))) s' := by
  have hpos := hr.base.ref_pos
  have hsol := solid_inode_pos h s' ip
  have hinum := (hr.base.inum ip (hr.base.ref_pos_of_solid hsol)).2
  have hno : NoFree [(Note.raises (s.itable ip).inum, s)] := noFree_cons nofun noFree_nil
  refine .bind (wpn_dirlink hE hr.base hpos) fun r s1 t1 hend => ?_
  rcases hend with ⟨rfl, rfl, hb1, hw1⟩ | ⟨rfl, hdir, hfind, rfl, hend⟩
  · refine .ite (fun hok => nomatch hok) fun _ => ?_
    refine .quiet (wpn_iput_walk (W := 0) hb1) fun _ s2 hs2 => ?_
    obtain ⟨hb2, hq2, hst2⟩ := hs2
    have hr2 := hr.walk hm.cwds (hw1.step hb1 hq2 fun e' _ => hst2 e') hb2
    exact hm.linkBad hE hr2 hno hf hi
  · refine .ite (fun _ => ?_) fun hok => (hok rfl).elim
    obtain ⟨ents, hadd, rfl⟩ := hend
    rw [Nat.mod_eq_of_lt hinum, hr.inum] at hadd
    obtain ⟨hb2, hlinked⟩ := hr.linked halloc hnd hdir hfind hadd hv
    have hm2 : Mid nobody s0 _ (h.inode ip) {dp} (withEnts s' dp ents) :=
      hm.moved hb2 rfl rfl hr.proc (.link _ _ _ hlinked hr.cwd) hr.ninodes
        (noFree_cons nofun (noFree_cons nofun noFree_nil))
    refine .quiet (Mid.iputWalk (W := 0) hm2) fun _ s3 hs3 => ?_
    have hw := hs3.1.iputStop (E := E) (a := (0 : Int)) hf hi
    simp only [List.append_assoc] at hw
    exact hw

theorem Mid.sysLink {old new : Path} (hm : Mid nobody s0 t h 0 s)
    (hf : h.files = 0) (hi : h.inodes = 0) (hsafe : Safe E s) :
    wpn E (sysLink p old new room) (fun _ s' t' => Done nobody s0 s' (t ++ t')) s := by
  unfold Vfs.sysLink nameiparent
  refine .quiet (hm.namei hE hsafe) fun r s1 hr => ?_
  obtain ⟨hl1, hr⟩ := hr
  split
  · exact Mid.stop hr hf hi
  next ip =>
  obtain ⟨hm1, hr1⟩ := hr
  refine .quiet (hm1.ilock hE hm1.base.ref_pos hl1.safe hr1) fun _ s2 hs2 => ?_
  obtain ⟨hl2, hm2, hv2, -⟩ := hs2
  refine .get_bind (.ite (fun _ => hm2.putStop hf hi) fun hnd => ?_)
  have halloc := hm2.base.typed ip hm2.base.ref_pos hv2
  refine .bind (wpn_raiseNlink ip) fun _ s3 t3 hs3 => ?_
  obtain ⟨rfl, hs3⟩ := hs3
  have hr3 : Raised h ip 0 s2 s3 := by
    have hb := Base.settle (W := 0) hm2.base hv2
    rw [hs3]
    refine ⟨hb.setNlink (solid_inode_pos ..) _, rfl, rfl, rfl, rfl, fun _ => rfl⟩
  have hc3 : Cwds (h.inode ip) s3 := fun q => by
    rw [hr3.proc]
    exact hm2.cwds q
  have hsafe3 : Safe E s3 := hl2.safe.imp_right fun hg => hg.congr hr3.sameTree hr3.cwd
  have hno : NoFree [(Note.raises (s2.itable ip).inum, s2)] := noFree_cons nofun noFree_nil
  refine .quiet (wpn_namex hE hr3.base hc3 hsafe3) fun r s4 hr => ?_
  obtain ⟨hw4, hend⟩ := hr
  split
  · exact hm2.linkBad hE (hr3.walk hm2.cwds hw4 hend) hno hf hi
  next dp name =>
  obtain ⟨hb4, -, hpar⟩ := hend
  obtain ⟨hv4, hdir4⟩ := hpar rfl
  have hr4 := hr3.walk hm2.cwds hw4 hb4
  have hok4 : (s4.ip dp).type ≠ .free := by rw [hdir4]; decide
  refine .quiet (wpn_ilock hE hb4 hb4.ref_pos (.inr hok4)) fun _ s5 hs5 => ?_
  obtain ⟨hb5, hv5, hq5, hst5⟩ := hs5
  have hr5 := hr4.walk hm2.cwds ⟨hq5, fun e _ => hst5 e⟩ hb5
  refine .get_bind (.ite (fun hdev => ?_) fun _ => ?_)
  · -- there is one device
    have hipos := hb5.ref_pos_of_solid (solid_inode_pos _ _ ip)
    exact (hdev ((hb5.home dp hb5.ref_pos).trans (hb5.home ip hipos).symm)).elim
  · exact hm2.linkName hE hr5 halloc hnd hv5 hf hi

-- ======== `unlink`

omit hE in
/-- An entry other than `.` and `..` is one of the names. -/
theorem removed_of_getElem {p : Nat} {names : List Dirent} {de : Dirent}
    (hde : (dots i p ++ names)[off]? = some de) (hdot : de.name ≠ dot)
    (hdd : de.name ≠ dotdot) (z : Dirent) :
    ∃ front back, names = front ++ de :: back ∧ (dots i p ++ names).set off z
        = dots i p ++ (front ++ z :: back) := by
  match off with
  | 0 => exact (hdot (Option.some.inj hde ▸ rfl)).elim
  | 1 => exact (hdd (Option.some.inj hde ▸ rfl)).elim
  | k + 2 =>
    have hk : names[k]? = some de := hde
    obtain ⟨hlt, hget⟩ := List.getElem?_eq_some_iff.mp hk
    refine ⟨names.take k, names.drop (k + 1), ?_, ?_⟩
    · rw [← hget, List.cons_getElem_drop_succ, List.take_append_drop]
    · show dots i p ++ names.set k z = _
      rw [List.set_eq_take_append_cons_drop, if_pos hlt]

/-- In `unlink`, which has found entry `off` of `dp` for `ip`. -/
structure Doomed (dp ip : InodeId) (off : Nat) (name : Name) (s : Vfs) : Prop where
  dir : (s.ip dp).type = .dir
  validDir : (s.itable dp).valid = true
  valid : (s.itable ip).valid = true
  entry : (s.ip dp).ents[off]? = some ⟨(s.itable ip).inum, name⟩
  name : name ≠ dot ∧ name ≠ dotdot
  links : (s.ip ip).nlink ≠ 0
  empty : (s.ip ip).type = .dir → isdirempty (s.ip ip).ents = true

/-- The directory without the entry, before it is put. -/
def shortened (s : Vfs) (dp ip : InodeId) (off : Nat) : Vfs :=
  Vfs.withNode s (s.itable dp).inum { s.ip dp with
    ents := (s.ip dp).ents.set off ⟨0, []⟩
    nlink := (s.ip dp).nlink - if (s.ip ip).type = .dir then 1 else 0 }

omit hE in
theorem Doomed.names (hd : Doomed dp ip off name s) (hb : Base h W s) :
    ∃ p names names', (s.ip dp).ents = dots (s.itable dp).inum p ++ names
      ∧ Removed ⟨(s.itable ip).inum, name⟩ names names'
      ∧ (s.ip dp).ents.set off ⟨0, []⟩ = dots (s.itable dp).inum p ++ names'
      ∧ DirShape (s.itable dp).inum (dots (s.itable dp).inum p ++ names') := by
  have hshape := (hb.shape _).dir hd.dir
  obtain ⟨p, names, hents, hp, hnames⟩ := hshape.dots
  have hentry := hd.entry
  have hents : (s.ip dp).ents = dots (s.itable dp).inum p ++ names := hents
  rw [hents] at hentry
  obtain ⟨front, back, rfl, hset⟩ := removed_of_getElem hentry hd.name.1 hd.name.2 ⟨0, []⟩
  have hbound := hshape.bound
  rw [show (s.node (s.itable dp).inum).ents = _ from hents] at hbound
  refine ⟨p, _, front ++ ⟨0, []⟩ :: back, hents, .slot front back,
    by rw [hents]; exact hset, ⟨p, _, rfl, hp, ?_⟩, ?_⟩
  · grind
  · grind [Nat.two_pow_pos]

omit hE in
/-- A directory that is removed is not the one it is removed from. -/
theorem Doomed.ne (hd : Doomed dp ip off name s) (hb : Base h W s) (hpos : 0 < (s.itable ip).ref) :
    (s.itable ip).inum ≠ (s.itable dp).inum := by
  intro heq
  have hip : s.ip ip = s.ip dp := by
    unfold Vfs.ip
    rw [heq]
  have hempty := hd.empty (by rw [hip]; exact hd.dir)
  obtain ⟨p, names, names', hents, hrem, -⟩ := hd.names hb
  rw [hip, hents] at hempty
  have hall := List.all_eq_true.mp (show names.all _ = true from hempty)
  cases hrem with
  | slot front back =>
    have hz := hall ⟨(s.itable ip).inum, name⟩ (by simp)
    exact (hb.inum ip hpos).1 (by simpa using hz)

omit hE in
theorem Doomed.unlinked (hd : Doomed dp ip off name s) (s' : Vfs)
    (hb : Base h W s) (hpos : 0 < (s.itable ip).ref) {m : Vfs}
    (hm : m = shortened s dp ip off) {node' : Nat → Node}
    (hfree : Freeing m (s.itable dp).inum t node')
    (hs' : s'.node = update node' (s.itable ip).inum { node' (s.itable ip).inum with
        nlink := (node' (s.itable ip).inum).nlink - 1 }) :
    Unlinked s m s' t (s.itable dp).inum (s.itable ip).inum name where
  type := hb.typed ip hpos hd.valid
  links := hd.links
  ne := hd.ne hb hpos
  empty := by
    intro hdir
    obtain ⟨p, names, hents, -⟩ := ((hb.shape _).dir hdir).dots
    refine ⟨p, names, ⟨hdir, hents⟩, fun de hde => ?_⟩
    have hempty := hd.empty hdir
    rw [show (s.ip ip).ents = _ from hents] at hempty
    have hall := List.all_eq_true.mp (show names.all _ = true from hempty)
    simpa using hall de hde
  names := by
    obtain ⟨p, names, names', hents, hrem, hset, -⟩ := hd.names hb
    refine ⟨p, names, names', ⟨hd.dir, hents⟩, hrem, ?_⟩
    rw [hm, ← hset]
    exact withNode_self ..
  inum := (hb.inum ip hpos).1
  other := fun x hx => by
    rw [hm]
    exact withNode_of_ne s _ hx
  ninodes := by rw [hm]; rfl
  cwd := fun q => by rw [hm]; rfl
  put := ⟨node', hfree, hs'⟩

omit hE in
/-- `unlink` after it has written the directory. -/
theorem Mid.unlinkTail (hm : Mid nobody s0 t h (ip ::ₘ {dp}) s)
    (hd : Doomed dp ip off name s) (hf : h.files = 0) (hi : h.inodes = 0) : wpn E (do
        Vfs.iput dp
        setNlink ip (· - 1)
        Vfs.iput ip
        return (0 : Int))
      (fun _ s' t' => Done nobody s0 s' (t ++ t'))
      (shortened s dp ip off) := by
  have hpos := hm.base.ref_pos_of_mem (Multiset.mem_cons_self ip _)
  have hdpos := hm.base.ref_pos_of_mem (Multiset.mem_cons_of_mem (Multiset.mem_singleton_self dp))
  have hne := hd.ne hm.base hpos
  obtain ⟨p, names, names', -, -, hset, hshape⟩ := hd.names hm.base
  generalize hs1 : shortened s dp ip off = s1
  have hb1 : Base ((h.inode ip).inode dp) 0 s1 := by
    have hb := Base.settle (W := 0) (hm.base.settle hd.valid) hd.validDir
    rw [← hs1]
    refine hb.withNode hdpos hd.validDir rfl ⟨fun _ => ?_, fun hno => ?_⟩ ?_
    · grind
    · exact (hno hd.dir).elim
    · exact fun _ => .inl (solid_inode_pos ..)
  have hit : s1.itable = s.itable := by rw [← hs1]; rfl
  have hproc : s1.proc = s.proc := by rw [← hs1]; rfl
  have hnin : s1.ninodes = s.ninodes := by rw [← hs1]; rfl
  have hcwd1 : ∀ q, cwdOf s1 q = cwdOf s q := fun q => by rw [← hs1]; rfl
  have hc1 : Cwds (h.inode ip) s1 := fun q => by
    rw [hproc]
    exact hm.cwds q
  refine .bind (wpn_iput hb1 (Multiset.notMem_zero dp)) fun _ s2 t2 hput => ?_
  have hip : (s2.itable ip).inum = (s.itable ip).inum := by
    have hne' : ip ≠ dp := fun heq => hne (by rw [heq])
    rw [(hput.stays ip (.inl hne')).1, hit]
  refine .quiet (wpn_setNlink ip _) fun _ s3 hs3 => ?_
  have hm3 : Mid nobody s0 (t ++ t2) (h.inode ip) 0 s3 := by
    have hfreeing := hput.freeing
    rw [hit] at hfreeing
    have hun := hd.unlinked s3 hm.base hpos hs1.symm hfreeing (by rw [hs3, ← hip]; rfl)
    refine ⟨?_, ?_, ?_, ?_, ?_, ?_⟩
    · rw [hs3]
      exact hput.base.setNlink (solid_inode_pos ..) _
    · intro q
      rw [hs3]
      show _ = (s2.proc q).cwd
      rw [hput.proc]
      exact hc1 q
    · intro x hx
      rw [hs3]
      show _ = (s2.proc x.1).ofile x.2
      rw [hput.proc, hproc]
      exact hm.slots x hx
    · intro q hq
      rw [hs3] at hq ⊢
      change (s2.proc q).life ≠ .live at hq
      show (∀ fd, (s2.proc q).ofile fd = none) ∧ (s2.proc q).cwd = none
      rw [hput.proc, hproc] at hq ⊢
      exact hm.idle q hq
    · refine hm.effects.snoc (.unlink s1 _ _ name hun fun q => ?_) ?_
      · rw [hs3, ← hcwd1 q]
        exact hput.cwdOf hc1 q
      · rw [hs3]
        exact hput.ninodes.trans hnin
    · intro n hn
      rcases List.mem_append.mp hn with hn | hn
      · exact hm.frees n hn
      · exact hput.freeOk (fun q _ => hc1 q) n hn
  simp only [← List.append_assoc]
  exact hm3.iputStop hf hi

omit hE in
theorem Mid.unlinkEntry (hm : Mid nobody s0 t h (ip ::ₘ {dp}) s)
    (hd : Doomed dp ip off name s) (hf : h.files = 0) (hi : h.inodes = 0) :
    wpn E (unlinkEntry dp ip off) (fun _ s' t' => Done nobody s0 s' (t ++ t')) s := by
  have htail := hm.unlinkTail (E := E) hd hf hi
  unfold Vfs.unlinkEntry
  refine .get_bind (.modify_bind (.ite (fun hdir => ?_) fun hdir => ?_))
  · refine .quiet (wpn_setNlink dp _) fun _ s1 hs1 => ?_
    have heq : s1 = shortened s dp ip off := by
      grind [shortened, Vfs.withNode, Vfs.ip, update_apply, update_idem]
    rw [heq]
    exact htail
  · have heq : shortened s dp ip off = Vfs.withNode s (s.itable dp).inum
        { s.ip dp with ents := (s.ip dp).ents.set off ⟨0, []⟩ } := by
      unfold shortened
      rw [if_neg hdir, UInt16.sub_zero]
    rw [heq] at htail
    exact htail

theorem Mid.sysUnlink {path : Path} (hm : Mid nobody s0 t h 0 s)
    (hf : h.files = 0) (hi : h.inodes = 0) (hsafe : Safe E s) :
    wpn E (sysUnlink p path) (fun _ s' t' => Done nobody s0 s' (t ++ t')) s := by
  unfold Vfs.sysUnlink nameiparent
  refine .quiet (hm.namex hE hsafe) fun r s1 hr => ?_
  obtain ⟨hl1, hr⟩ := hr
  split
  · exact Mid.stop hr hf hi
  next dp name =>
  obtain ⟨hm1, hr1, -⟩ := hr
  refine .quiet (hm1.ilock hE hm1.base.ref_pos hl1.safe hr1) fun _ s2 hs2 => ?_
  obtain ⟨hl2, hm2, hv2, hst2⟩ := hs2
  have hbad : wpn E (do Vfs.iput dp; return (-1 : Int))
      (fun _ s' t' => Done nobody s0 s' (t ++ t')) s2 := hm2.putStop hf hi
  refine .ite (fun _ => hbad) fun hname => ?_
  have hpos2 := hm2.base.ref_pos
  have hr2 := hl2.walk.reachable_inum hm1.cwds (hst2 dp).1 hr1
  refine .quiet (wpn_dirlookup hE hm2.base hpos2) fun r s3 hend => ?_
  obtain ⟨hdir2, hend⟩ := hend
  split
  · rw [show s3 = s2 from hend.1]
    exact hbad
  next ip off =>
  obtain ⟨hm3, hl3, hr3⟩ := hm2.found ⟨.refl h s2, hl2.safe⟩ hr2 hdir2 hend
  obtain ⟨-, hq3, hst3, de, hde, -, rfl, hinum⟩ := hend
  have hpos3 := hm3.base.ref_pos_of_mem (Multiset.mem_cons_self ip _)
  refine .quiet (hm3.ilock hE hpos3 hl3.safe hr3) fun _ s4 hs4 => ?_
  obtain ⟨hl4, hm4, hv4, hst4⟩ := hs4
  refine .get_bind (.ite (fun _ => .fault (hE _ (by decide))) fun hlinks => ?_)
  refine .ite (fun _ => ?_) fun hempty => ?_
  · exact .quiet hm4.iputWalk fun _ s5 hs5 => hs5.1.putStop hf hi
  · have hst := (hst3 dp hpos2).trans (hst4 dp)
    have hip := hst.ip (hq3.trans hl4.walk.quiet)
    have hdoomed : Doomed dp ip off de.name s4 := by
      refine ⟨?_, ?_, hv4, ?_, not_or.mp hname, ?_, ?_⟩
      · rw [hip]; exact hdir2
      · exact hst.2 hv2
      · rw [hip, hde, (hst4 ip).1, hinum]
      · exact fun hz => hlinks (.inl hz)
      · grind
    exact hm4.unlinkEntry hdoomed hf hi

end

end Vfs

end GemOS
