/-
The calls about descriptors and processes: `dup`, `close`, `pipe`, `fork`,
`exit` and the part of `open` after the lookup.
-/
import GemOS.Proofs.FileTable

namespace GemOS

open Function Prog

namespace Vfs

/-- A descriptor changes. -/
def Holds.slot (h : Holds) (p : ProcId) (fd : Fd) (x : Option FileId) :
    Holds :=
  { h with o := update h.o (p, fd) x }

theorem Holds.file_comm (h : Holds) (f f' : FileId) : (h.file f).file f' = (h.file f').file f := by
  unfold Holds.file
  rw [Multiset.cons_swap]

theorem Holds.file_slot (h : Holds) (f : FileId) (p : ProcId) (fd : Fd) (x : Option FileId) :
    (h.file f).slot p fd x = (h.slot p fd x).file f := rfl

/-- The state after `p->ofile[fd] = x`. -/
def withSlot (s : Vfs) (p : ProcId) (fd : Fd) (x : Option FileId) : Vfs :=
  { s with proc := update s.proc p { s.proc p with
      ofile := update (s.proc p).ofile fd x } }

theorem withSlot_life (s : Vfs) (p : ProcId) (fd : Fd) (x : Option FileId)
    (q : ProcId) : ((withSlot s p fd x).proc q).life = (s.proc q).life := by
  unfold withSlot
  dsimp only
  by_cases hne : q = p
  · rw [hne, update_self]
  · rw [update_of_ne hne]

theorem withSlot_cwd (s : Vfs) (p : ProcId) (fd : Fd) (x : Option FileId)
    (q : ProcId) : ((withSlot s p fd x).proc q).cwd = (s.proc q).cwd := by
  unfold withSlot
  dsimp only
  by_cases hne : q = p
  · rw [hne, update_self]
  · rw [update_of_ne hne]

theorem withSlot_of_ne (s : Vfs) {p q : ProcId} (fd : Fd) (x : Option FileId) (hne : q ≠ p) :
    (withSlot s p fd x).proc q = s.proc q := update_of_ne hne ..

theorem withSlot_self (s : Vfs) (p : ProcId) (fd : Fd)
    (x : Option FileId) : ((withSlot s p fd x).proc p).ofile = update (s.proc p).ofile fd x := by
  unfold withSlot
  dsimp only
  rw [update_self]

section

variable {h h' : Holds} {W W' : Multiset InodeId} {s s' s0 : Vfs}
  {e : InodeId} {f : FileId} {i : Nat} {E : Halt → Prop} {p : ProcId}
  {g : ProcId → Prop} {t t' : Notes Note Vfs} {fd : Fd} {x : Option FileId}

-- ======== one descriptor

/-- The slots of the state follow those counted. -/
theorem Slots.slot (hs : Slots g h s) (p : ProcId) (fd : Fd)
    (x : Option FileId) : Slots g (h.slot p fd x) (withSlot s p fd x) := by
  intro y hy
  obtain ⟨q, fd'⟩ := y
  show update h.o (p, fd) x (q, fd') = ((withSlot s p fd x).proc q).ofile fd'
  by_cases hp : q = p
  · rw [hp, withSlot_self]
    by_cases hfd : fd' = fd
    · rw [hfd, update_self, update_self]
    · rw [update_of_ne hfd, update_of_ne, ← hp, hs _ hy]
      exact fun heq => hfd (Prod.mk.inj heq).2
  · rw [withSlot_of_ne s fd x hp, update_of_ne, hs _ hy]
    exact fun heq => hp (Prod.mk.inj heq).1

theorem Base.slot (hb : Base h W s) (h' : Holds) (hh : h'.w = h.w ∧ h'.inodes = h.inodes)
    (hfiles : ∀ f, descs h'.o f + h'.files.count f
      = descs h.o f + h.files.count f) (pr : ProcId → Proc) :
    Base h' W { s with proc := pr } := by
  refine hb.transfer rfl rfl rfl ?_ hb.closed ?_
  · grind [hb.file]
  · intro e
    unfold solid
    rw [hh.1, hh.2]

/-- A descriptor of a live process changes. -/
theorem Mid.slot (hm : Mid g s0 t h W s) (hlive : (s.proc p).life = .live)
    (hb : Base h' W' s') (hh : h'.o = (h.slot p fd x).o ∧ h'.w = h.w)
    (hproc : s'.proc = (withSlot s p fd x).proc) (hnode : s'.node = s.node)
    (hnin : s'.ninodes = s.ninodes) (hit : s'.itable = s.itable) : Mid g s0 t h' W' s' := by
  refine hm.quiet hb hnode hnin ?_ ?_ ?_ ?_
  · intro q
    unfold cwdOf
    rw [hproc, hit, withSlot_cwd]
  · intro q
    rw [hproc, withSlot_cwd, hh.2]
    exact hm.cwds q
  · intro y hy
    rw [hh.1, hproc]
    exact hm.slots.slot p fd x y hy
  · intro q hq
    rw [hproc] at hq ⊢
    rw [withSlot_life] at hq
    have hne : q ≠ p := by grind
    rw [withSlot_of_ne s fd x hne]
    exact hm.idle q hq

/-- A descriptor with file `f` is cleared: the references to it. -/
theorem descs_clear (ho : h.o (p, fd) = some f) (f' : FileId) :
    descs ((h.slot p fd none).file f).o f' + ((h.slot p fd none).file f).files.count f'
      = descs h.o f' + h.files.count f' := by
  have hup := descs_update h.o (p, fd) none f'
  rw [ho, if_neg (Option.some_ne_none f').symm] at hup
  show descs (update h.o (p, fd) none) f' + (f ::ₘ h.files).count f' = _
  rw [Multiset.count_cons]
  simp only [Option.some.injEq, eq_comm (a := f)] at hup
  omega

/-- A free descriptor gets file `f`: the references to it. -/
theorem descs_fill (ho : h.o (p, fd) = none) (f' : FileId) : descs (h.slot p fd (some f)).o f'
        + (h.slot p fd (some f)).files.count f'
      = descs (h.file f).o f' + (h.file f).files.count f' := by
  have hup := descs_update h.o (p, fd) (some f) f'
  rw [ho, if_neg (Option.some_ne_none f').symm] at hup
  show descs (update h.o (p, fd) (some f)) f' + h.files.count f'
    = descs h.o f' + (f ::ₘ h.files).count f'
  rw [Multiset.count_cons]
  simp only [Option.some.injEq, eq_comm (a := f)] at hup
  omega

/-- A descriptor is cleared; its file is the call's to close. -/
theorem Mid.clear (hm : Mid g s0 t h W s) (hlive : (s.proc p).life = .live)
    (ho : h.o (p, fd) = some f) : Mid g s0 t ((h.slot p fd none).file f) W (withSlot s p fd none) :=
  have hb := hm.base.slot ((h.slot p fd none).file f) ⟨rfl, rfl⟩
    (descs_clear ho) (withSlot s p fd none).proc
  hm.slot hlive hb ⟨rfl, rfl⟩ rfl rfl rfl rfl

/-- A descriptor is filled with a file the call held. -/
theorem Mid.fill (hm : Mid g s0 t (h.file f) W s)
    (hlive : (s.proc p).life = .live) (ho : h.o (p, fd) = none) :
    Mid g s0 t (h.slot p fd (some f)) W (withSlot s p fd (some f)) :=
  have hb := hm.base.slot (h.slot p fd (some f)) ⟨rfl, rfl⟩
    (descs_fill ho) (withSlot s p fd (some f)).proc
  hm.slot hlive hb ⟨rfl, rfl⟩ rfl rfl rfl rfl

theorem wpn_fdalloc (p : ProcId) (f : FileId) : wpn E (fdalloc p f) (fun r s' t' => t' = [] ∧
      match r with
      | none => s' = s
      | some fd => (s.proc p).ofile fd = none ∧ s' = withSlot s p fd (some f)) s := by
  unfold fdalloc
  refine .get_bind ?_
  split
  · next fd hfind =>
    have hfree := List.find?_some hfind
    have ho := Option.isNone_iff_eq_none.mp hfree
    exact .modify_bind (.pure ⟨rfl, ho, rfl⟩)
  · exact .pure ⟨rfl, rfl⟩

-- ======== the calls

theorem wpn_argfd (p : ProcId) (n : Int) : wpn E (argfd p n) (fun r s' t' => t' = [] ∧ s' = s ∧
      ∀ fd f, r = some (fd, f) → (s.proc p).ofile fd = some f) s := by
  unfold argfd
  refine .get_bind ?_
  split
  · refine .pure ⟨rfl, rfl, fun fd f hr => ?_⟩
    obtain ⟨f', hf', heq⟩ := Option.map_eq_some_iff.mp hr
    cases heq
    exact hf'
  · exact .pure ⟨rfl, rfl, nofun⟩

variable (hE : ∀ x, x ≠ noType → E x)

include hE

theorem Mid.sysClose {n : Int} (hm : Mid nobody s0 t h 0 s)
    (hlive : (s.proc p).life = .live) (hf : h.files = 0) (hi : h.inodes = 0) :
    wpn E (sysClose p n) (fun _ s' t' => Done nobody s0 s' (t ++ t')) s := by
  unfold Vfs.sysClose
  refine .quiet (wpn_argfd p n) fun r s1 harg => ?_
  obtain ⟨rfl, hslot⟩ := harg
  split
  · exact hm.stop hf hi
  · next fd f =>
    have ho : h.o (p, fd) = some f := (hm.slots (p, fd) id).trans (hslot fd f rfl)
    refine .modify_bind (.bind ((hm.clear hlive ho).fileclose hE) fun _ s2 t2 hs2 => ?_)
    simp only [← List.append_assoc]
    exact hs2.1.stop hf hi

theorem Mid.sysDup {n : Int} (hm : Mid nobody s0 t h 0 s)
    (hlive : (s.proc p).life = .live) (hf : h.files = 0) (hi : h.inodes = 0) :
    wpn E (sysDup p n) (fun _ s' t' => Done nobody s0 s' (t ++ t')) s := by
  unfold Vfs.sysDup
  refine .quiet (wpn_argfd p n) fun r s1 harg => ?_
  obtain ⟨rfl, hslot⟩ := harg
  split
  · exact hm.stop hf hi
  next _ f =>
  refine .quiet (wpn_fdalloc p f) fun r s2 hr => ?_
  split
  · rw [hr]
    exact hm.stop hf hi
  next fd =>
  obtain ⟨hfree, rfl⟩ := hr
  -- the descriptor is there before its reference is
  have hb2 : Base h 0 (withSlot s1 p fd (some f)) := hm.base.slot h ⟨rfl, rfl⟩ (fun _ => rfl) _
  refine .quiet (wpn_filedup hE hb2) fun _ s3 hs3 => ?_
  obtain ⟨hb3, ft, rfl⟩ := hs3
  have ho : h.o (p, fd) = none := (hm.slots (p, fd) id).trans hfree
  have hb4 := hb3.slot (h.slot p fd (some f)) ⟨rfl, rfl⟩ (descs_fill ho)
    (withSlot s1 p fd (some f)).proc
  exact (hm.slot hlive hb4 ⟨rfl, rfl⟩ rfl rfl rfl rfl).stop hf hi

-- ======== `pipe`

omit hE in
/-- A file gets its type, and with it the inode the call held. -/
theorem Base.setType (hb : Base h W s) (htype : (s.ftable f).type = .none)
    (hpos : (s.ftable f).ref ≠ 0) {y : File} (href : y.ref = (s.ftable f).ref)
    (hh : h'.o = h.o ∧ h'.w = h.w ∧ h'.files = h.files)
    (hin : ∀ e, h'.inodes.count e + (if y.type.refers e then 1 else 0) = h.inodes.count e) :
    Base h' W { s with ftable := update s.ftable f y } := by
  refine hb.transfer rfl rfl rfl ?_ ?_ ?_
  · grind [hb.file, update_apply]
  · grind [update_apply, hb.closed]
  · intro e
    have hup := openers_update s.ftable f y e
    have hold : (s.ftable f).type.refers e = false := by rw [htype]; rfl
    rw [hold, if_neg Bool.false_ne_true] at hup
    have := hin e
    unfold solid
    rw [hh.2.1]
    dsimp only
    omega

omit hE in
theorem Mid.setPipe (hm : Mid g s0 t h W s)
    (htype : (s.ftable f).type = .none) (hpos : (s.ftable f).ref ≠ 0) : Mid g s0 t h W { s with
      ftable := update s.ftable f ((fun file => { file with type := .pipe }) (s.ftable f)) } := by
  refine hm.same ?_ rfl rfl rfl rfl rfl rfl
  exact hm.base.setType htype hpos rfl ⟨rfl, rfl, rfl⟩ fun _ => rfl

theorem Mid.pipealloc {mem : Bool} (hm : Mid g s0 t h 0 s) :
    wpn E (pipealloc mem) (fun r s' t' => s'.proc = s.proc ∧ match r with
      | none => Mid g s0 (t ++ t') h 0 s'
      | some (f0, f1) => Mid g s0 (t ++ t') ((h.file f1).file f0) 0 s') s := by
  unfold Vfs.pipealloc
  refine .quiet hm.filealloc fun r s1 hr => ?_
  split
  · obtain rfl : s1 = s := hr
    refine .pure ⟨rfl, ?_⟩
    rw [List.append_nil]
    exact hm
  next f0 =>
  obtain ⟨hm1, hnew1⟩ := hr
  refine .quiet hm1.filealloc fun r s2 hr => ?_
  split
  · obtain rfl : s2 = s1 := hr
    refine .bind (hm1.fileclose hE) fun _ s3 t3 hs3 => .pure ?_
    rw [List.append_nil]
    exact ⟨hs3.2.trans hnew1.proc, hs3.1⟩
  next f1 =>
  obtain ⟨hm2, hnew2⟩ := hr
  have hproc2 := hnew2.proc.trans hnew1.proc
  rw [Holds.file_comm] at hm2
  refine .ite (fun _ => ?_) fun _ => ?_
  · have hne : f0 ≠ f1 := by
      intro heq
      have := hnew2.old
      rw [← heq, hnew1.ref] at this
      exact absurd this (by decide)
    have hfile0 := hnew2.other f0 hne
    have hm3 := hm2.setPipe (f := f0) (by rw [hfile0]; exact hnew1.type)
      (by rw [hfile0, hnew1.ref]; decide)
    refine .modify_bind (.modify_bind (.pure ⟨hproc2, ?_⟩))
    rw [List.append_nil]
    apply hm3.setPipe
    · dsimp only
      rw [update_of_ne hne.symm]
      exact hnew2.type
    · dsimp only
      rw [update_of_ne hne.symm, hnew2.ref]
      decide
  · refine .bind (hm2.fileclose hE) fun _ s3 t3 hs3 => ?_
    refine .bind (hs3.1.fileclose hE) fun _ s4 t4 hs4 => .pure ?_
    rw [List.append_nil, ← List.append_assoc]
    exact ⟨hs4.2.trans (hs3.2.trans hproc2), hs4.1⟩

/-- Both files of a pipe are closed again. -/
theorem Mid.closeBoth {f0 f1 : FileId} {α : Type} {a : α}
    (hm : Mid nobody s0 t ((h.file f1).file f0) 0 s) (hf : h.files = 0) (hi : h.inodes = 0) :
    wpn E (do Vfs.fileclose f0; Vfs.fileclose f1; return a)
      (fun _ s' t' => Done nobody s0 s' (t ++ t')) s := by
  refine .bind (hm.fileclose hE) fun _ s1 t1 hs1 => ?_
  refine .bind (hs1.1.fileclose hE) fun _ s2 t2 hs2 => ?_
  simp only [← List.append_assoc]
  exact hs2.1.stop hf hi

theorem Mid.sysPipe {mem copied : Bool} (hm : Mid nobody s0 t h 0 s)
    (hlive : (s.proc p).life = .live) (hf : h.files = 0) (hi : h.inodes = 0) :
    wpn E (sysPipe p mem copied) (fun _ s' t' => Done nobody s0 s' (t ++ t')) s := by
  unfold Vfs.sysPipe
  refine .bind (hm.pipealloc hE) fun r s1 t1 hr => ?_
  obtain ⟨hproc1, hr⟩ := hr
  have hlive1 : (s1.proc p).life = .live := by rw [hproc1]; exact hlive
  simp only [← List.append_assoc]
  split
  · exact Mid.stop hr hf hi
  next rf wf =>
  have hm1 : Mid nobody s0 (t ++ t1) ((h.file wf).file rf) 0 s1 := hr
  refine .quiet (wpn_fdalloc p rf) fun r s2 hr => ?_
  split
  · obtain rfl : s2 = s1 := hr
    exact hm1.closeBoth hE hf hi
  next fd0 =>
  obtain ⟨hfree0, rfl⟩ := hr
  have hm2 := hm1.fill hlive1 ((hm1.slots (p, fd0) id).trans hfree0)
  have hlive2 := (withSlot_life s1 p fd0 (some rf) p).trans hlive1
  refine .quiet (wpn_fdalloc p wf) fun r s3 hr => ?_
  split
  · obtain rfl : s3 = _ := hr
    have ho : (h.slot p fd0 (some rf)).o (p, fd0) = some rf := update_self ..
    have hm3 := hm2.clear hlive2 ho
    rw [Holds.file_slot, Holds.file_slot] at hm3
    exact .modify_bind (Mid.closeBoth (h := (h.slot p fd0 (some rf)).slot p fd0 none) hE hm3 hf hi)
  next fd1 =>
  obtain ⟨hfree1, rfl⟩ := hr
  have hne : fd0 ≠ fd1 := by
    intro heq
    rw [← heq, withSlot_self, update_self] at hfree1
    exact Option.some_ne_none rf hfree1
  have hm3 := Mid.fill (h := h.slot p fd0 (some rf)) hm2 hlive2
    ((hm2.slots (p, fd1) id).trans hfree1)
  have hlive3 := (withSlot_life (withSlot s1 p fd0 (some rf)) p fd1 (some wf) p).trans hlive2
  refine .ite (fun _ => hm3.stop hf hi) fun _ => .modify_bind (.modify_bind ?_)
  · have ho0 : ((h.slot p fd0 (some rf)).slot p fd1 (some wf)).o (p, fd0) = some rf := by
      show update (update h.o _ _) _ _ _ = _
      rw [update_of_ne fun heq => hne (Prod.mk.inj heq).2, update_self]
    have hm4 := hm3.clear hlive3 ho0
    have hlive4 := (withSlot_life _ p fd0 none p).trans hlive3
    have ho1 : (((h.slot p fd0 (some rf)).slot p fd1 (some wf)).slot p fd0
        none).o (p, fd1) = some wf := by
      show update (update _ _ _) _ _ _ = _
      rw [update_of_ne fun heq => hne (Prod.mk.inj heq).2.symm, update_self]
    have hm5 := hm4.clear hlive4 ho1
    rw [Holds.file_slot, Holds.file_comm] at hm5
    exact hm5.closeBoth hE hf hi

-- ======== `open`

/-- The rest of `open`, which holds the inode. -/
theorem Mid.openInode (hm : Mid nobody s0 t (h.inode e) 0 s)
    (hlive : (s.proc p).life = .live) (hf : h.files = 0) (hi : h.inodes = 0) :
    wpn E (openInode p e) (fun _ s' t' => Done nobody s0 s' (t ++ t')) s := by
  unfold Vfs.openInode
  refine .get_bind (.ite (fun _ => hm.iputStop hf hi) fun _ => ?_)
  refine .quiet hm.filealloc fun r s1 hr => ?_
  split
  · obtain rfl : s1 = s := hr
    exact hm.iputStop hf hi
  next f =>
  obtain ⟨hm1, hnew⟩ := hr
  have hlive1 : (s1.proc p).life = .live := by rw [hnew.proc]; exact hlive
  refine .quiet (wpn_fdalloc p f) fun r s2 hr => ?_
  split
  · obtain rfl : s2 = s1 := hr
    refine .bind (hm1.fileclose hE) fun _ s3 t3 hs3 => ?_
    simp only [← List.append_assoc]
    exact hs3.1.iputStop hf hi
  next fd =>
  obtain ⟨hfree, rfl⟩ := hr
  have hm2 := hm1.fill hlive1 ((hm1.slots (p, fd) id).trans hfree)
  refine .modify_bind ?_
  refine Mid.stop (h := h.slot p fd (some f)) (hm2.same ?_ rfl rfl rfl rfl rfl rfl) hf hi
  have hpos : (s1.ftable f).ref ≠ 0 := by rw [hnew.ref]; decide
  refine hm2.base.setType hnew.type hpos rfl ⟨rfl, rfl, rfl⟩ fun e' => ?_
  -- a device or an inode, the file refers to `e`
  show h.inodes.count e' + _ = (e ::ₘ h.inodes).count e'
  rw [Multiset.count_cons]
  dsimp only
  by_cases hdev : (s.ip e).type = .device
  · simp only [hdev, if_true, FdType.refers, beq_iff_eq, eq_comm (a := e)]
  · simp only [hdev, if_false, FdType.refers, beq_iff_eq, eq_comm (a := e)]

end

end Vfs

end GemOS
