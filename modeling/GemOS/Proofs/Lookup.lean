/-
Path lookup: which inodes a process can reach, and that `namex` ends at
one of them and leaves everything but reference counts alone.
-/
import GemOS.Proofs.InodeTable

namespace GemOS

open Prog

namespace Vfs

-- ======== reachability

/-- The inode number of a process's current directory. -/
def cwdOf (s : Vfs) (p : ProcId) : Option Nat :=
  (s.proc p).cwd.map fun e => (s.itable e).inum

/-- Directory `x` has an entry for `y`. -/
def Edge (s : Vfs) (x y : Nat) : Prop :=
  (s.node x).type = .dir ∧ ∃ de ∈ (s.node x).ents, de.inum = y ∧ y ≠ 0

/-- Some process can get to inode `x` by a path. -/
inductive Reachable (s : Vfs) : Nat → Prop
  | root : Reachable s rootino
  | cwd {p : ProcId} {i : Nat} : cwdOf s p = some i → Reachable s i
  | step {x y : Nat} : Reachable s x → Edge s x y → Reachable s y

/-- No entry that can be reached names a free inode. -/
structure Good (s : Vfs) : Prop where
  root : (s.node rootino).type = .dir
  entries : ∀ x y, Reachable s x → Edge s x y → (s.node y).type ≠ .free

/-- The types and entries of all inodes are the same. -/
def SameTree (s s' : Vfs) : Prop :=
  ∀ x, (s'.node x).type = (s.node x).type ∧ (s'.node x).ents = (s.node x).ents

variable {s s' : Vfs} {x : Nat}

theorem SameTree.of_eq (h : s'.node = s.node) :
    SameTree s s' := fun x => by rw [h]; exact ⟨rfl, rfl⟩

/-- An entry of the new tree was in the old one. -/
theorem SameTree.edge (h : SameTree s s') {y : Nat} (he : Edge s' x y) : Edge s x y := by
  unfold Edge at he ⊢
  rw [(h x).1, (h x).2] at he
  exact he

/-- A path of the one state is one of the other. -/
theorem Reachable.mono (hcwd : ∀ p i, cwdOf s' p = some i → Reachable s i)
    (hedge : ∀ x y, Edge s' x y → Reachable s x → Reachable s y)
    (h : Reachable s' x) : Reachable s x := by
  induction h with
  | root => exact .root
  | cwd hp => exact hcwd _ _ hp
  | step _ he ih => exact hedge _ _ he ih

theorem Reachable.congr (htree : SameTree s s')
    (hcwd : ∀ p, cwdOf s' p = cwdOf s p) (h : Reachable s' x) : Reachable s x :=
  h.mono (fun p _ hp => .cwd ((hcwd p).symm.trans hp)) fun _ _ he hx => .step hx (htree.edge he)

/-- Only types, names and working directories matter. -/
theorem Good.congr (h : Good s) (htree : SameTree s s') (hcwd : ∀ p, cwdOf s' p = cwdOf s p) :
    Good s' where
  root := (htree rootino).1.trans h.root
  entries := fun x y hx he => by
    rw [(htree y).1]
    exact h.entries x y (hx.congr htree hcwd) (htree.edge he)

-- ======== lookups

section

variable {h : Holds} {W : Multiset InodeId} {s s' s0 : Vfs} {e dp : InodeId}
  {i : Nat} {E : Halt → Prop} {name : Name}

variable {p : ProcId}

theorem dwellers_pos {w : ProcId → Option InodeId} (hp : w p = some e) : 0 < dwellers w e := by
  have := le_tally (s := Finset.univ) (f := w)
    (w := fun x => if x = some e then 1 else 0) (Finset.mem_univ p)
  simp only [hp, if_true] at this
  unfold dwellers
  omega

/-- A working directory counts as a reference. -/
theorem solid_of_cwd (hp : h.w p = some e) : 0 < solid h s e := by
  have := dwellers_pos hp
  unfold solid
  omega

/-- The current directories counted are those of the state. -/
def Cwds (h : Holds) (s : Vfs) : Prop := ∀ p, h.w p = (s.proc p).cwd

/-- With good entries, what can be reached is allocated. -/
theorem Good.allocated (hg : Good s) (hb : Base h W s) (hw : Cwds h s)
    {x : Nat} (hx : Reachable s x) : (s.node x).type ≠ .free := by
  cases hx with
  | root => rw [hg.root]; decide
  | cwd hp =>
    unfold cwdOf at hp
    obtain ⟨e, he, rfl⟩ := Option.map_eq_some_iff.mp hp
    have hs := solid_of_cwd (s := s) ((hw _).trans he)
    exact hb.typed e (hb.ref_pos_of_solid hs) (hb.loaded e hs)
  | step hx he => exact hg.entries _ _ hx he

/-- The entry that was found. -/
theorem findName_some {ents : List Dirent} {off : Nat} (hf : findName ents name = some off) :
    ∃ de, ents[off]? = some de ∧ de.inum ≠ 0 ∧ de.name = name := by
  unfold findName at hf
  obtain ⟨hlt, hp, -⟩ := List.findIdx?_eq_some_iff_getElem.mp hf
  simp only [ne_eq, Bool.and_eq_true, decide_eq_true_eq, beq_iff_eq] at hp
  exact ⟨ents[off], List.getElem?_eq_getElem hlt, hp.1, hp.2⟩

/-- What `dirlookup` ends with. -/
def LookupEnd (h : Holds) (W : Multiset InodeId) (s : Vfs) (dp : InodeId)
    (name : Name) (r : Option (InodeId × Nat)) (s' : Vfs) : Prop :=
  match r with
  | none => s' = s ∧ findName (s.ip dp).ents name = none
  | some (e, off) => Base h (e ::ₘ W) s' ∧ Quiet s s'
      ∧ (∀ e', 0 < (s.itable e').ref → Stays s s' e')
      ∧ ∃ de, (s.ip dp).ents[off]? = some de ∧ de.inum ≠ 0
        ∧ de.name = name ∧ (s'.itable e).inum = de.inum

variable (hE : ∀ x, x ≠ noType → E x)

include hE

/-- `dirlookup` reads, and takes a reference to what it finds. -/
theorem wpn_dirlookup (hb : Base h W s) (hpos : 0 < (s.itable dp).ref) :
    wpn E (dirlookup dp name) (fun r s' t => t = [] ∧
      (s.ip dp).type = .dir ∧ LookupEnd h W s dp name r s') s := by
  unfold dirlookup
  refine .get_bind (.ite (fun _ => .fault (hE _ (by decide))) fun hdir => ?_)
  have hdir : (s.ip dp).type = .dir := Classical.not_not.mp hdir
  split
  · next hnone => exact .pure ⟨rfl, hdir, rfl, hnone⟩
  · next off hsome =>
    obtain ⟨de, hde, hinum, hname⟩ := findName_some hsome
    have hbound := ((hb.shape _).dir hdir).bound de (List.mem_of_getElem? hde)
    rw [hde, hb.home dp hpos]
    refine .quiet (wpn_iget hE hb ⟨hinum, hbound⟩) fun e s' he => .pure ?_
    exact ⟨rfl, hdir, he.1, he.2.2.1, he.2.2.2, de, hde, hinum, hname, he.2.1⟩

end

-- ======== `namex`

/-- What a lookup that began in `s0` has done to the state. -/
structure Walk (h : Holds) (s0 s : Vfs) : Prop where
  quiet : Quiet s0 s
  stays : ∀ e, 0 < solid h s0 e → Stays s0 s e

section

variable {h : Holds} {W : Multiset InodeId} {s s' s0 : Vfs}
  {e ip : InodeId} {p : ProcId} {E : Halt → Prop}

theorem Walk.refl (h : Holds) (s : Vfs) : Walk h s s := ⟨.refl s, fun e _ => .refl s e⟩

theorem Walk.trans {s'' : Vfs} (hw : Walk h s s') (hw' : Walk h s' s'') : Walk h s s'' where
  quiet := hw.quiet.trans hw'.quiet
  stays := fun e he => (hw.stays e he).trans (hw'.stays e (by rw [hw.quiet.solid]; exact he))

section

variable (hw : Walk h s0 s)

include hw

/-- One more function of the lookup. -/
theorem Walk.step (hb : Base h W s) (hq : Quiet s s')
    (hst : ∀ e', 0 < (s.itable e').ref → Stays s s' e') : Walk h s0 s' :=
  hw.trans ⟨hq, fun e he => hst e (hb.ref_pos_of_solid he)⟩

/-- A lookup does not change directories. -/
theorem Walk.cwds (hc : Cwds h s0) : Cwds h s := by
  intro p
  rw [hw.quiet.proc]
  exact hc p

theorem Walk.cwdOf (hc : Cwds h s0) (p : ProcId) : cwdOf s p = cwdOf s0 p := by
  unfold Vfs.cwdOf
  rw [hw.quiet.proc]
  cases hp : (s0.proc p).cwd with
  | none => rfl
  | some e =>
    have hst := hw.stays e (solid_of_cwd ((hc p).trans hp))
    exact congrArg some hst.1

/-- Nothing becomes reachable by being looked up. -/
theorem Walk.reachable (hc : Cwds h s0) {x : Nat} : Reachable s x ↔ Reachable s0 x :=
  ⟨fun hx => hx.congr (.of_eq hw.quiet.node) (hw.cwdOf hc),
    fun hx => hx.congr (.of_eq hw.quiet.node.symm) fun p => (hw.cwdOf hc p).symm⟩

/-- A reachable inode stays so, and in its entry. -/
theorem Walk.reachable_inum (hc : Cwds h s0) {e : InodeId}
    (he : (s.itable e).inum = (s0.itable e).inum) (hr : Reachable s0 (s0.itable e).inum) :
    Reachable s (s.itable e).inum := by
  rw [he, hw.reachable hc]
  exact hr

theorem Walk.good (hc : Cwds h s0) (hg : Good s0) :
    Good s := hg.congr (.of_eq hw.quiet.node) (hw.cwdOf hc)

end

/-- `ilock` on a free inode is allowed, or does not happen. -/
def Safe (E : Halt → Prop) (s : Vfs) : Prop := E noType ∨ Good s

theorem Safe.walk (hs : Safe E s0) (hw : Walk h s0 s) (hc : Cwds h s0) :
    Safe E s := hs.imp_right (hw.good hc)

theorem Safe.allocated (hs : Safe E s) (hb : Base h W s) (hc : Cwds h s)
    (hr : Reachable s (s.itable e).inum) : E noType ∨ (s.ip e).type ≠ .free :=
  hs.imp_right fun hg => hg.allocated hb hc hr

/-- What `namex` ends with. -/
def NamexEnd (h : Holds) (par : Bool) (s0 : Vfs) (r : Option (InodeId × Name)) (s' : Vfs) : Prop :=
  Walk h s0 s' ∧
    match r with
    | none => Base h 0 s'
    | some (e, _) => Base h {e} s' ∧ Reachable s' (s'.itable e).inum
        ∧ (par = true → (s'.itable e).valid = true ∧ (s'.ip e).type = .dir)

variable {par : Bool} {path : Path}

/-- The last element of a path. -/
theorem wpn_namexEnd {name : Name} (hb : Base h {ip} s) (hw : Walk h s0 s)
    (hr : Reachable s (s.itable ip).inum) :
    wpn E (namexEnd par ip name) (fun r s' t => t = [] ∧ NamexEnd h par s0 r s') s := by
  unfold namexEnd
  refine .ite (fun _ => ?_) fun hpar => .pure ⟨rfl, hw, hb, hr, ?_⟩
  · refine .quiet (wpn_iput_walk hb) fun _ s' hput => .pure ⟨rfl, ?_, ?_⟩
    · exact hw.step hb hput.2.1 fun e' _ => hput.2.2 e'
    · exact hput.1
  · exact fun h' => (hpar h').elim

variable (hE : ∀ x, x ≠ noType → E x)

include hE

/-- The loop of `namex`, by induction on its rounds: it holds one
reference, to something reachable. -/
theorem wpn_namexLoop (hc : Cwds h s0) (hsafe : Safe E s0) (par : Bool)
    (n : Nat) : ∀ (ip : InodeId) (path : Path) (name : Name) (s : Vfs),
      Base h {ip} s → Walk h s0 s → Reachable s (s.itable ip).inum →
      wpn E (namexLoop par n ip path name) (fun r s' t => t = [] ∧ NamexEnd h par s0 r s') s := by
  induction n with
  | zero => exact fun ip path name s hb hw hr => wpn_namexEnd hb hw hr
  | succ n ih =>
    intro ip path name s hb hw hr
    have hmem : ip ∈ ({ip} : Multiset InodeId) := Multiset.mem_singleton_self ip
    unfold namexLoop
    split
    · exact wpn_namexEnd hb hw hr
    next path' name' _ =>
    have hpos := hb.ref_pos_of_mem hmem
    have hok := (hsafe.walk hw hc).allocated hb (hw.cwds hc) hr
    refine .quiet (wpn_ilock hE hb hpos hok) fun _ s1 hlock => .get_bind ?_
    obtain ⟨hb1, hv1, hq1, hst1⟩ := hlock
    have hw1 := hw.step hb hq1 fun e' _ => hst1 e'
    have hr1 : Reachable s1 (s1.itable ip).inum := by
      rw [(hst1 ip).1, hw1.reachable hc, ← hw.reachable hc]
      exact hr
    refine .ite (fun _ => ?_) fun hdir => .ite (fun hlast => ?_) fun _ => ?_
    · refine .quiet (wpn_iput_walk hb1) fun _ s2 hput => .pure ⟨rfl, ?_, ?_⟩
      · exact hw1.step hb1 hput.2.1 fun e' _ => hput.2.2 e'
      · exact hput.1
    · have hdir : (s1.ip ip).type = .dir := Classical.not_not.mp hdir
      exact .pure ⟨rfl, hw1, hb1, hr1, fun _ => ⟨hv1, hdir⟩⟩
    · have hpos1 := hb1.ref_pos_of_mem hmem
      refine .quiet (wpn_dirlookup hE hb1 hpos1) fun r s2 hend => ?_
      obtain ⟨hdir, hend⟩ := hend
      split
      · rw [hend.1]
        refine .quiet (wpn_iput_walk hb1) fun _ s3 hput => .pure ⟨rfl, ?_, hput.1⟩
        exact hw1.step hb1 hput.2.1 fun e' _ => hput.2.2 e'
      · next next off =>
        obtain ⟨hb2, hq2, hst2, de, hde, hne, -, hinum⟩ := hend
        have hw2 := hw1.step hb1 hq2 hst2
        -- the lookup holds the next inode before it gives up this one
        have hr2 : Reachable s2 (s2.itable next).inum := by
          rw [hw2.reachable hc, ← hw1.reachable hc, hinum]
          exact .step hr1 ⟨hdir, de, List.mem_of_getElem? hde, rfl, hne⟩
        rw [show next ::ₘ {ip} = ip ::ₘ {next} from Multiset.cons_swap next ip 0] at hb2
        refine .quiet (wpn_iput_walk hb2) fun _ s3 hput => ?_
        obtain ⟨hb3, hq3, hst3⟩ := hput
        have hw3 := hw2.step hb2 hq3 fun e' _ => hst3 e'
        apply ih next path' name' s3 hb3 hw3
        rw [(hst3 next).1, hw3.reachable hc, ← hw2.reachable hc]
        exact hr2

/-- A lookup starts at the root or in the working directory. -/
theorem wpn_namexStart (hb : Base h 0 s) (hc : Cwds h s) :
    wpn E (namexStart p path) (fun e s' t => t = [] ∧ Base h {e} s'
      ∧ Walk h s s' ∧ Reachable s' (s'.itable e).inum) s := by
  unfold namexStart
  refine .get_bind (.ite (fun _ => ?_) fun _ => ?_)
  · refine (wpn_iget hE hb ⟨by decide, by decide⟩).mono fun e s' t hget => ?_
    obtain ⟨ht, hb', hinum, hq, hst⟩ := hget
    refine ⟨ht, hb', (Walk.refl h s).step hb hq hst, ?_⟩
    rw [hinum]
    exact .root
  · split
    · next e he =>
      have hpos := hb.ref_pos_of_solid (solid_of_cwd ((hc p).trans he))
      refine (wpn_idup hb hpos).mono fun r s' t hdup => ?_
      obtain ⟨ht, rfl, hb', hq, hst⟩ := hdup
      have hw := (Walk.refl h s).step hb hq fun e' _ => hst e'
      refine ⟨ht, hb', hw, ?_⟩
      rw [(hst r).1, hw.reachable hc]
      exact .cwd (p := p) (by unfold cwdOf; rw [he]; rfl)
    · exact .fault (hE _ (by decide))

/-- `namex` gives back all references but the one it returns. -/
theorem wpn_namex (hb : Base h 0 s) (hc : Cwds h s) (hsafe : Safe E s) : wpn E (namex p path par)
      (fun r s' t => t = [] ∧ NamexEnd h par s r s') s := by
  unfold namex
  refine .quiet (wpn_namexStart hE hb hc) fun e s1 hstart => ?_
  obtain ⟨hb1, hw1, hr1⟩ := hstart
  exact wpn_namexLoop hE hc hsafe par path.length e path [] s1 hb1 hw1 hr1

end

end Vfs

end GemOS
