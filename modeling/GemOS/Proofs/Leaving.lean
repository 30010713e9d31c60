/-
The calls about processes: `fork`, `exit`, `wait`, `exec` and `chdir`.

`exit` and `chdir` put a current directory while the process still points
to it. The references are then counted for the process as it will be.
-/
import GemOS.Proofs.Descriptors

namespace GemOS

open Function Prog

namespace Vfs

section

variable {h h' : Holds} {W W' : Multiset InodeId} {s s' s0 s1 : Vfs}
  {e : InodeId} {f : FileId} {i : Nat} {E : Halt → Prop} {p np : ProcId}
  {g : ProcId → Prop} {t t' : Notes Note Vfs} {fd : Fd}

/-- A current directory changes. -/
def Holds.cwd (h : Holds) (p : ProcId) (x : Option InodeId) : Holds :=
  { h with w := update h.w p x }

theorem Holds.cwd_inode_cwd (h : Holds) (p : ProcId) (x y : Option InodeId) (e : InodeId) :
    ((h.cwd p x).inode e).cwd p y = (h.cwd p y).inode e := by
  unfold Holds.cwd Holds.inode
  rw [update_idem]

theorem solid_cwd (h : Holds) (s : Vfs) (p : ProcId) (x : Option InodeId) (e : InodeId) :
    solid (h.cwd p x) s e + (if h.w p = some e then 1 else 0)
      = solid h s e + if x = some e then 1 else 0 := by
  have hup := dwellers_update h.w p x e
  unfold solid
  show openers s.ftable e + dwellers (update h.w p x) e + h.inodes.count e + _ = _
  omega

/-- The views and the processes change, and each inode is held as often
as before. -/
theorem Base.view (hb : Base h W s) (h' : Holds) (pr : ProcId → Proc)
    (ho : h'.o = h.o ∧ h'.files = h.files) (hsol : ∀ e, solid h' s e = solid h s e) :
    Base h' W { s with proc := pr } := by
  refine hb.transfer rfl rfl rfl ?_ hb.closed hsol
  intro f
  rw [ho.1, ho.2]
  exact hb.file f

/-- An inode the call holds becomes the current directory of a process
without one. -/
theorem Base.enter (hb : Base (h.inode e) W s) (hw : h.w p = none) (pr : ProcId → Proc) :
    Base (h.cwd p (some e)) W { s with proc := pr } := by
  refine hb.view _ pr ⟨rfl, rfl⟩ fun e' => ?_
  have hup := solid_cwd h s p (some e) e'
  rw [hw, if_neg (Option.some_ne_none e').symm] at hup
  rw [solid_inode]
  simp only [Option.some.injEq, eq_comm (a := e)] at hup
  exact hup

/-- A current directory becomes the call's to put. -/
theorem Base.leave (hb : Base h W s) (hw : h.w p = some e) : Base ((h.cwd p none).inode e) W s := by
  refine hb.view _ s.proc ⟨rfl, rfl⟩ fun e' => ?_
  have hup := solid_cwd h s p none e'
  rw [hw, if_neg (Option.some_ne_none e').symm] at hup
  rw [solid_inode]
  simp only [Option.some.injEq, eq_comm (a := e)] at hup
  exact hup

-- ======== `fork`

/-- In the loop of `kfork`, which began in `s1`, with `fds` to go. -/
structure Forking (np : ProcId) (fds : List Fd) (h : Holds) (s1 s : Vfs) : Prop where
  base : Base h 0 s
  cwds : Cwds h s
  slots : Slots nobody h s
  files : h.files = 0
  inodes : h.inodes = 0
  itable : s.itable = s1.itable
  node : s.node = s1.node
  ninodes : s.ninodes = s1.ninodes
  other : ∀ q, q ≠ np → s.proc q = s1.proc q
  cwd : (s.proc np).cwd = none
  left : ∀ fd ∈ fds, (s.proc np).ofile fd = none

theorem Forking.tail {fds : List Fd} (hf : Forking np (fd :: fds) h s1 s) :
    Forking np fds h s1 s :=
  { hf with left := fun fd' hfd => hf.left fd' (List.mem_cons_of_mem _ hfd) }

/-- One descriptor is copied. -/
theorem Forking.copy {fds : List Fd} (hk : Forking np (fd :: fds) h s1 s)
    (hnd : fd ∉ fds) (hb : Base (h.file f) 0 s') {ft : FileId → File}
    (hs' : s' = { s with ftable := ft }) :
    Forking np fds (h.slot np fd (some f)) s1 (withSlot s' np fd (some f)) := by
  subst hs'
  have ho : h.o (np, fd) = none := (hk.slots (np, fd) id).trans (hk.left fd List.mem_cons_self)
  have hslots : Slots nobody h { s with ftable := ft } := hk.slots
  refine ⟨?_, ?_, hslots.slot np fd (some f), hk.files, hk.inodes,
    hk.itable, hk.node, hk.ninodes, ?_, ?_, ?_⟩
  · exact hb.slot (h.slot np fd (some f)) ⟨rfl, rfl⟩ (descs_fill ho) _
  · intro q
    rw [withSlot_cwd]
    exact hk.cwds q
  · intro q hq
    rw [withSlot_of_ne _ _ _ hq]
    exact hk.other q hq
  · rw [withSlot_cwd]
    exact hk.cwd
  · intro fd' hfd'
    have hne : fd' ≠ fd := fun heq => hnd (heq ▸ hfd')
    rw [withSlot_self, update_of_ne hne]
    exact hk.left fd' (List.mem_cons_of_mem _ hfd')

variable (hE : ∀ x, x ≠ noType → E x)

include hE

theorem wpn_dupFiles (fds : List Fd) (hnd : fds.Nodup) :
    ∀ h s, Forking np fds h s1 s → wpn E (dupFiles p np fds)
      (fun _ s' t' => t' = [] ∧ ∃ h', Forking np [] h' s1 s') s := by
  induction fds with
  | nil => exact fun h s hk => .pure ⟨rfl, h, hk⟩
  | cons fd fds ih =>
    intro h s hk
    obtain ⟨hfd, hnd⟩ := List.nodup_cons.mp hnd
    unfold dupFiles
    refine .get_bind ?_
    split
    · exact ih hnd h s hk.tail
    · refine .quiet (wpn_filedup hE hk.base) fun _ s' hs' => ?_
      obtain ⟨hb', ft, hs'⟩ := hs'
      exact .modify_bind (ih hnd _ _ (hk.copy hfd hb' hs'))

theorem Mid.kfork {mem : Bool} (hm : Mid nobody s0 t h 0 s)
    (hlive : (s.proc p).life = .live) (hf : h.files = 0) (hi : h.inodes = 0) :
    wpn E (kfork p mem) (fun _ s' t' => Done nobody s0 s' (t ++ t')) s := by
  unfold Vfs.kfork
  refine .get_bind ?_
  split
  · exact hm.stop hf hi
  next np hfind =>
  have hnp : (s.proc np).life = .unused := by
    simpa using List.find?_some hfind
  have hne : p ≠ np := by
    intro heq
    rw [heq, hnp] at hlive
    exact absurd hlive (by decide)
  refine .ite (fun _ => ?_) fun _ => hm.stop hf hi
  have hidle := hm.idle np (by rw [hnp]; decide)
  have hk : Forking np (List.finRange nofile) h s s :=
    ⟨hm.base, hm.cwds, hm.slots, hf, hi, rfl, rfl, rfl, fun _ _ => rfl,
      hidle.2, fun fd _ => hidle.1 fd⟩
  refine .quiet (wpn_dupFiles hE _ (List.nodup_finRange _) h s hk) ?_
  intro _ s1 hs1
  obtain ⟨h1, hk1⟩ := hs1
  refine .get_bind ?_
  split
  · exact .fault (hE _ (by decide))
  next e he =>
  have hsol : 0 < solid h1 s1 e := solid_of_cwd ((hk1.cwds p).trans he)
  refine .quiet (wpn_idup hk1.base (hk1.base.ref_pos_of_solid hsol)) ?_
  intro e' s2 hs2
  obtain ⟨rfl, hb2, hq2, hst2⟩ := hs2
  have hv : (s2.itable e').valid = true := (hst2 e').2 (hk1.base.loaded e' hsol)
  have hw : h1.w np = none := (hk1.cwds np).trans hk1.cwd
  have hproc : ∀ q, q ≠ np → s2.proc q = s.proc q := by
    intro q hq
    rw [hq2.proc]
    exact hk1.other q hq
  have hinum : ∀ x, (s2.itable x).inum = (s.itable x).inum := by
    intro x
    rw [(hst2 x).1, hk1.itable]
  have hb3 := (hb2.settle hv).enter hw (update s2.proc np
    ((fun q => { q with cwd := some e', life := .live }) (s2.proc np)))
  refine .modify_bind (.pure ?_)
  generalize hs3 : ({ s2 with proc := _ } : Vfs) = s3 at hb3 ⊢
  have hself : s3.proc np = { s1.proc np with cwd := some e', life := .live } := by
    rw [← hs3, ← hq2.proc]
    exact update_self ..
  have hoth : ∀ q, q ≠ np → s3.proc q = s.proc q := by
    intro q hq
    rw [← hs3, ← hproc q hq]
    exact update_of_ne hq ..
  have hit : s3.itable = s2.itable := by rw [← hs3]
  have hslots : Slots nobody (h1.cwd np (some e')) s3 := by
    intro x hx
    rw [show (h1.cwd np (some e')).o = h1.o from rfl, hk1.slots x hx]
    by_cases hq : x.1 = np
    · rw [hq, hself]
    · rw [hoth x.1 hq, hk1.other x.1 hq]
  refine ⟨h1.cwd np (some e'), hk1.files, hk1.inodes, hslots, hb3, ?_, hslots, ?_, ?_, ?_⟩
  · intro q
    show update h1.w np (some e') q = _
    by_cases hq : q = np
    · rw [hq, hself, update_self]
    · rw [update_of_ne hq, hoth q hq, ← hk1.other q hq]
      exact hk1.cwds q
  · intro q hq
    have hqn : q ≠ np := by grind
    rw [hoth q hqn] at hq ⊢
    exact hm.idle q hq
  · refine hm.effects.snoc (.fork p np ?_ fun q => ?_) ?_
    · rw [← hs3, ← hk1.node]
      exact hq2.node
    · unfold cwdOf
      by_cases hq : q = np
      · rw [if_pos hq, hq, hself, ← hk1.other p hne, he, hit]
        exact congrArg some (hinum e')
      · rw [if_neg hq, hoth q hq, hit]
        simp only [hinum]
    · rw [← hs3, ← hk1.ninodes]
      exact hq2.ninodes
  · grind [hm.frees]

-- ======== `exit`

omit hE in
/-- Process `p` is about to give up what it has. -/
theorem Mid.leaving (hm : Mid nobody s0 t h W s) : Mid (· = p) s0 t h W s := { hm with
    slots := fun x _ => hm.slots x id
    frees := fun n hn e he => by
      obtain ⟨hnl, hop, hcwd⟩ := hm.frees n hn e he
      exact ⟨hnl, hop, fun q hq => (hcwd q hq).elim⟩ }

omit hE in
theorem Done.leaving (hd : Done nobody s0 s t) : Done (· = p) s0 s t := by
  obtain ⟨h, hf, hi, hs, hm⟩ := hd
  exact ⟨h, hf, hi, hs, hm.leaving⟩

omit hE in
/-- The rest of the loop of `kexit` is left with the cleared slots. -/
theorem Mid.closing (hm : Mid (· = p) s0 t h 0 s) (ho : h.o (p, fd) = some f) :
    Mid (· = p) s0 t ((h.slot p fd none).file f) 0 s := by
  refine hm.quiet ?_ rfl rfl (fun _ => rfl) hm.cwds ?_ hm.idle
  · exact hm.base.slot ((h.slot p fd none).file f) ⟨rfl, rfl⟩ (descs_clear ho) s.proc
  · intro x hx
    rw [← hm.slots x hx]
    exact update_of_ne (fun heq => hx (by rw [heq])) ..

theorem wpn_closeFiles (fds : List Fd) : ∀ t h s,
    Mid (· = p) s0 t h 0 s → Slots nobody h s → h.files = 0 →
    h.inodes = 0 → (s.proc p).life = .live → wpn E (closeFiles p fds) (fun _ s' t' => ∃ h',
      Mid (· = p) s0 (t ++ t') h' 0 s' ∧ Slots nobody h' s' ∧ h'.files = 0
        ∧ h'.inodes = 0 ∧ (s'.proc p).life = .live
        ∧ ∀ fd, fd ∈ fds ∨ (s.proc p).ofile fd = none → (s'.proc p).ofile fd = none) s := by
  induction fds with
  | nil =>
    intro t h s hm hs hf hi hlive
    refine .pure ⟨h, ?_, hs, hf, hi, hlive, ?_⟩
    · rw [List.append_nil]; exact hm
    · exact fun fd hfd => hfd.resolve_left List.not_mem_nil
  | cons fd fds ih =>
    intro t h s hm hs hf hi hlive
    unfold closeFiles
    refine .get_bind ?_
    split
    · grind
    · next f hsome =>
      have ho : h.o (p, fd) = some f := (hs (p, fd) id).trans hsome
      refine .bind ((hm.closing ho).fileclose hE) fun _ s1 t1 hs1 => ?_
      obtain ⟨hm1, hproc1⟩ := hs1
      have hlive1 : (s1.proc p).life = .live := by
        rw [hproc1]; exact hlive
      have hs1 : Slots nobody h s1 := by
        intro x hx
        rw [hproc1]
        exact hs x hx
      have hb2 : Base (h.slot p fd none) 0 (withSlot s1 p fd none) :=
        hm1.base.slot _ ⟨rfl, rfl⟩ (fun _ => rfl) _
      have hm2 : Mid (· = p) s0 (t ++ t1) (h.slot p fd none) 0 (withSlot s1 p fd none) :=
        hm1.slot hlive1 hb2 ⟨(update_idem ..).symm, rfl⟩ rfl rfl rfl rfl
      refine .modify_bind ((ih _ _ _ hm2 (hs1.slot p fd none) hf hi
        ((withSlot_life s1 p fd none p).trans hlive1)).mono ?_)
      intro _ s' t' hs'
      obtain ⟨h', hm', hs', hf', hi', hl', hnone'⟩ := hs'
      rw [List.append_assoc] at hm'
      refine ⟨h', hm', hs', hf', hi', hl', fun fd' hfd' => hnone' fd' ?_⟩
      by_cases hfd : fd' = fd
      · right
        rw [withSlot_self, hfd, update_self]
      · rcases hfd' with hmem | hno
        · exact .inl (List.mem_of_ne_of_mem hfd hmem)
        · right
          rw [withSlot_self, update_of_ne hfd, hproc1]
          exact hno

omit hE in
/-- A process gives up its current directory, perhaps for another. -/
theorem Mid.left {x : Option InodeId} {pr : Proc} (hm : Mid (· = p) s0 t h W s)
    (hslots : Slots nobody h s) (hf : h.files = 0) (hi : h.inodes = 0)
    (hput : Put (h.cwd p x) 0 e s s' t') (hpr : pr.ofile = (s.proc p).ofile ∧ pr.cwd = x)
    (hlife : pr.life ≠ .live → (∀ fd, pr.ofile fd = none) ∧ pr.cwd = none)
    (hx : ∀ e', x = some e' → Reachable s (s.itable e').inum ∧ (s.ip e').type = .dir) :
    Done (· = p) s0 { s' with proc := update s'.proc p pr } (t ++ t') := by
  generalize hs2 : ({ s' with proc := _ } : Vfs) = s2
  have hself : s2.proc p = pr := by
    rw [← hs2]
    exact update_self ..
  have hoth : ∀ q, q ≠ p → s2.proc q = s.proc q := by
    intro q hq
    rw [← hs2, ← hput.proc]
    exact update_of_ne hq ..
  have hw : ∀ q, (h.cwd p x).w q = (s2.proc q).cwd := by
    intro q
    by_cases hq : q = p
    · rw [hq, hself, hpr.2]
      exact update_self ..
    · rw [hoth q hq, ← hm.cwds q]
      exact update_of_ne hq ..
  have hinum : ∀ q e', (s2.proc q).cwd = some e' → (s2.itable e').inum = (s.itable e').inum := by
    intro q e' hq
    rw [← hs2]
    exact (hput.stays e' (.inr (solid_of_cwd ((hw q).trans hq)))).1
  have hslots2 : Slots nobody (h.cwd p x) s2 := by
    intro y hy
    rw [show (h.cwd p x).o = h.o from rfl, hslots y hy]
    by_cases hq : y.1 = p
    · rw [hq, hself, hpr.1]
    · rw [hoth y.1 hq]
  refine ⟨h.cwd p x, hf, hi, hslots2, ?_, hw, fun y _ => hslots2 y id, ?_, ?_, ?_⟩
  · rw [← hs2]
    exact hput.base.view _ _ ⟨rfl, rfl⟩ fun _ => rfl
  · intro q hq
    by_cases hqp : q = p
    · rw [hqp, hself] at hq ⊢
      exact hlife hq
    · rw [hoth q hqp] at hq ⊢
      exact hm.idle q hq
  · refine hm.effects.snoc (.leave p (x.map fun e' => (s.itable e').inum)
      (s.itable e).inum ?_ ?_ fun q => ?_) ?_
    · rw [← hs2]
      exact hput.freeing
    · intro y hy
      obtain ⟨e', he', rfl⟩ := Option.map_eq_some_iff.mp hy
      exact hx e' he'
    · have hcwd : cwdOf s2 q = (s2.proc q).cwd.map fun e' => (s.itable e').inum :=
        Option.map_congr fun e' he' => hinum q e' he'
      rw [hcwd]
      by_cases hqp : q = p
      · rw [if_pos hqp, hqp, hself, hpr.2]
      · rw [if_neg hqp, hoth q hqp]
        rfl
    · rw [← hs2]
      exact hput.ninodes
  · grind [hm.frees, hput.freeOk]

theorem Mid.kexit (hm : Mid nobody s0 t h 0 s) (hlive : (s.proc p).life = .live) (hf : h.files = 0)
    (hi : h.inodes = 0) : wpn E (kexit p) (fun _ s' t' => Done (· = p) s0 s' (t ++ t')) s := by
  unfold Vfs.kexit
  refine .ite (fun _ => .fault (hE _ (by decide))) fun _ => ?_
  refine .bind (wpn_closeFiles hE _ t h s hm.leaving hm.slots hf hi hlive) ?_
  intro _ s1 t1 hs1
  obtain ⟨h1, hm1, hslots1, hf1, hi1, hlive1, hnone⟩ := hs1
  refine .get_bind ?_
  split
  · exact .fault (hE _ (by decide))
  next e he =>
  have hb1 := hm1.base.leave ((hm1.cwds p).trans he)
  refine .bind (wpn_iput hb1 (Multiset.notMem_zero e)) fun _ s2 t2 hp => ?_
  refine .modify ?_
  rw [List.append_nil, ← List.append_assoc]
  have hofile : ((s2.proc p).ofile) = (s1.proc p).ofile := by rw [hp.proc]
  refine hm1.left hslots1 hf1 hi1 hp ⟨hofile, rfl⟩ (fun _ => ⟨?_, rfl⟩) nofun
  intro fd
  show (s2.proc p).ofile fd = none
  rw [hofile]
  exact hnone fd (.inl (List.mem_finRange fd))

-- ======== the others

theorem Mid.sysChdir {path : Path} (hm : Mid nobody s0 t h 0 s)
    (hf : h.files = 0) (hi : h.inodes = 0) (hsafe : Safe E s) :
    wpn E (sysChdir p path) (fun _ s' t' => Done (· = p) s0 s' (t ++ t')) s := by
  unfold Vfs.sysChdir
  refine .quiet (hm.namei hE hsafe) fun r s1 hr => ?_
  obtain ⟨hl1, hr⟩ := hr
  split
  · exact (Mid.stop hr hf hi).mono fun _ _ _ hd => hd.leaving
  next ip =>
  obtain ⟨hm1, hr1⟩ := hr
  refine .quiet (hm1.ilock hE hm1.base.ref_pos hl1.safe hr1) fun _ s2 hs2 => ?_
  obtain ⟨hl2, hm2, hv, hst⟩ := hs2
  refine .get_bind (.ite (fun _ => ?_) fun hdir => ?_)
  · exact (hm2.putStop hf hi).mono fun _ _ _ hd => hd.leaving
  split
  · exact .fault (hE _ (by decide))
  next old hold =>
  have hr2 := hl2.walk.reachable_inum hm1.cwds (hst ip).1 hr1
  have hb2 : Base (((h.cwd p none).inode old).inode ip) 0 s2 :=
    Base.settle (W := 0) (hm2.base.leave ((hm2.cwds p).trans hold)) hv
  have hb3 := hb2.enter (p := p) (update_self ..) s2.proc
  rw [Holds.cwd_inode_cwd] at hb3
  refine .bind (wpn_iput hb3 (Multiset.notMem_zero old)) ?_
  intro _ s3 t3 hput
  refine .modify_bind (.pure ?_)
  rw [List.append_nil]
  refine hm2.leaving.left hm2.slots hf hi hput ⟨?_, rfl⟩ ?_ ?_
  · rw [hput.proc]
  · intro hlife
    dsimp only at hlife ⊢
    rw [hput.proc] at hlife ⊢
    -- a process without files that has a current directory is live
    have hidle := (hm2.idle p hlife).2
    rw [hold] at hidle
    exact absurd hidle (Option.some_ne_none old)
  · grind

theorem Mid.kexec {path : Path} {loaded : Bool}
    (hm : Mid nobody s0 t h 0 s) (hf : h.files = 0) (hi : h.inodes = 0) (hsafe : Safe E s) :
    wpn E (kexec p path loaded) (fun _ s' t' => Done nobody s0 s' (t ++ t')) s := by
  unfold Vfs.kexec
  refine .quiet (hm.namei hE hsafe) fun r s1 hr => ?_
  obtain ⟨hl1, hr⟩ := hr
  split
  · exact Mid.stop hr hf hi
  next ip =>
  obtain ⟨hm1, hr1⟩ := hr
  refine .quiet (hm1.ilock hE hm1.base.ref_pos hl1.safe hr1) fun _ s2 hs2 => ?_
  obtain ⟨-, hm2, -⟩ := hs2
  exact hm2.putStop hf hi

omit hE in
/-- A process that has exited is forgotten. -/
theorem Mid.reap {q : ProcId} {pr : Proc} (hm : Mid nobody s0 t h 0 s)
    (hpr : pr.ofile = (s.proc q).ofile ∧ pr.cwd = (s.proc q).cwd)
    (hlife : (s.proc q).life ≠ .live) :
    Mid nobody s0 t h 0 { s with proc := update s.proc q pr } := by
  have hcwd : ∀ q', (update s.proc q pr q').cwd = (s.proc q').cwd := by grind [update_apply]
  have hofile : ∀ q', (update s.proc q pr q').ofile = (s.proc q').ofile := by grind [update_apply]
  refine hm.quiet ?_ rfl rfl ?_ ?_ ?_ ?_
  · exact hm.base.view h _ ⟨rfl, rfl⟩ fun _ => rfl
  · intro q'
    unfold cwdOf
    dsimp only
    rw [hcwd]
  · intro q'
    dsimp only
    rw [hcwd]
    exact hm.cwds q'
  · intro x hx
    dsimp only
    rw [hofile]
    exact hm.slots x hx
  · intro q' hq'
    dsimp only at hq' ⊢
    rw [hofile, hcwd]
    by_cases hq : q' = q
    · rw [hq]; exact hm.idle q hlife
    · rw [update_of_ne hq] at hq'
      exact hm.idle q' hq'

end

end Vfs

end GemOS
