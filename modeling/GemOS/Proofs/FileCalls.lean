/-
Whole runs of file system calls: the references balance.

`Rest` is a state between calls: nobody but descriptors, files and current
directories holds anything. Every call leads from one to another through
`Effects` (`wpn_prog`), so that what holds between calls is proved from
`Base` and from what each `Change` keeps.
-/
import GemOS.Proofs.Linking

namespace GemOS

open Function Prog

namespace Vfs

/-- Between calls nothing is held by a call. -/
def now (s : Vfs) : Holds where
  o := fun x => (s.proc x.1).ofile x.2
  w := fun p => (s.proc p).cwd
  files := 0
  inodes := 0

/-- A state between calls. -/
structure Rest (s : Vfs) : Prop where
  base : Base (now s) 0 s
  idle : Idle s

/-- The processes that give up their current directory in a call. -/
def Call.leaver (p : ProcId) : Call → ProcId → Prop
  | .chdir _ => (· = p)
  | .exit => (· = p)
  | _ => nobody

section

variable {s s' s0 : Vfs} {g : ProcId → Prop} {t : Notes Note Vfs} {E : Halt → Prop} {p : ProcId}

/-- Between two calls nothing is in hand. -/
theorem Rest.mid (hr : Rest s) : Mid nobody s [] (now s) 0 s :=
  ⟨hr.base, fun _ => rfl, fun _ _ => rfl, hr.idle, .nil s, nofun⟩

/-- A call ends as it began. -/
theorem Done.rest (hd : Done g s0 s t) : Rest s := by
  obtain ⟨h, hf, hi, hs, hm⟩ := hd
  have hnow : h = now s := by
    obtain ⟨o, w, files, inodes⟩ := h
    obtain rfl : files = 0 := hf
    obtain rfl : inodes = 0 := hi
    obtain rfl : o = fun x => (s.proc x.1).ofile x.2 := funext fun x => hs x id
    obtain rfl : w = fun q => (s.proc q).cwd := funext hm.cwds
    rfl
  exact ⟨hnow ▸ hm.base, hm.idle⟩

theorem Done.effects (hd : Done g s0 s t) : Effects s0 t s := by
  obtain ⟨h, -, -, -, hm⟩ := hd
  exact hm.effects

theorem Done.frees (hd : Done g s0 s t) : ∀ n ∈ t, FreeOk g n := by
  obtain ⟨h, -, -, -, hm⟩ := hd
  exact hm.frees

/-- The result of a call is dropped. -/
theorem wpn_drop {α : Type} {x : VfsM α} (h : wpn E x (fun _ s' t => Done g s0 s' ([] ++ t)) s) :
    wpn E (do let _ ← x) (fun _ s' t => Done g s0 s' t) s := by
  refine .bind h fun _ s' t hd => .pure ?_
  rw [List.append_nil]
  exact hd

variable (hE : ∀ x, x ≠ noType → E x)

include hE

/-- Every call, by its own lemma. -/
theorem wpn_body (hr : Rest s) (hsafe : Safe E s) (hlive : (s.proc p).life = .live) (c : Call) :
    wpn E (c.body p) (fun _ s' t => Done (c.leaver p) s s' t) s := by
  have hm := hr.mid
  cases c with
  | «open» path omode room => exact wpn_drop (hm.sysOpen hE hlive rfl rfl hsafe)
  | mkdir path room => exact wpn_drop (hm.sysCreate hE rfl rfl hsafe (by decide))
  | mknod path major minor room => exact wpn_drop (hm.sysCreate hE rfl rfl hsafe (by decide))
  | link old new room => exact wpn_drop (hm.sysLink hE rfl rfl hsafe)
  | unlink path => exact wpn_drop (hm.sysUnlink hE rfl rfl hsafe)
  | chdir path => exact wpn_drop (hm.sysChdir hE rfl rfl hsafe)
  | dup fd => exact wpn_drop (hm.sysDup hE hlive rfl rfl)
  | close fd => exact wpn_drop (hm.sysClose hE hlive rfl rfl)
  | pipe mem copied => exact wpn_drop (hm.sysPipe hE hlive rfl rfl)
  | fork mem => exact wpn_drop (hm.kfork hE hlive rfl rfl)
  | exec path loaded => exact wpn_drop (hm.kexec hE rfl rfl hsafe)
  | exit => exact hm.kexit hE hlive rfl rfl
  | wait q =>
    refine .get_bind (.ite (fun hz => .modify ?_) fun _ => .pure ?_)
    · have hlife : (s.proc q).life ≠ .live := by
        rw [hz]
        decide
      refine Mid.done (hm.reap ?_ hlife) rfl rfl
      exact ⟨rfl, rfl⟩
    · exact hm.done rfl rfl

/-- Only a live process makes a call. -/
theorem wpn_prog (hr : Rest s) (hsafe : Safe E s) (c : ProcId × Call) :
    wpn E (Call.prog c) (fun _ s' t => Done (c.2.leaver c.1) s s' t) s :=
  .get_bind (.ite (fun hlive => wpn_body hE hr hsafe hlive c.2) fun _ => .fault (hE _ (by decide)))

end

-- ======== runs

/-- The disk: only directories have entries, an inode that is in use has a
number the disk has and a link (`ireclaim` has freed the others), and the
root is a directory. -/
structure Disk (s : Vfs) : Prop where
  shape : ∀ i, Shape i (s.node i)
  size : s.ninodes ≤ 2 ^ 16
  inside : ∀ i, (s.node i).type ≠ .free → i ≠ 0 ∧ i < s.ninodes
  links : ∀ i, (s.node i).type ≠ .free → (s.node i).nlink ≠ 0
  root : (s.node rootino).type = .dir

/-- The kernel has started `/init`, which looked up a path from the root:
nothing is open, and the first process has the root as its current
directory. -/
structure Booted (s : Vfs) : Prop where
  disk : Disk s
  files : ∀ f, s.ftable f = ⟨.none, 0⟩
  inodes : ∃ e, s.itable e = ⟨1, rootdev, rootino, true⟩
    ∧ s.proc initproc = ⟨.live, fun _ => none, some e⟩
    ∧ ∀ e', e' ≠ e → (s.itable e').ref = 0
  procs : ∀ q, q ≠ initproc → s.proc q = ⟨.unused, fun _ => none, none⟩

variable {s s' : Vfs} {n t : Notes Note Vfs}

theorem Booted.cwd (hb : Booted s) {e : InodeId}
    (hinit : s.proc initproc = ⟨.live, fun _ => none, some e⟩) (q : ProcId) :
    (s.proc q).cwd = if q = initproc then some e else none := by
  by_cases hq : q = initproc
  · rw [if_pos hq, hq, hinit]
  · rw [if_neg hq, hb.procs q hq]

theorem Booted.ofile (hb : Booted s) (q : ProcId) (fd : Fd) : (s.proc q).ofile fd = none := by
  obtain ⟨e, -, hinit, -⟩ := hb.inodes
  by_cases hq : q = initproc
  · rw [hq, hinit]
  · rw [hb.procs q hq]

theorem Booted.solid (hb : Booted s) {e : InodeId}
    (hinit : s.proc initproc = ⟨.live, fun _ => none, some e⟩) (e' : InodeId) :
    solid (now s) s e' = if e' = e then 1 else 0 := by
  have hop : openers s.ftable e' = 0 := by
    refine tally_eq_zero.mpr fun f _ => ?_
    rw [hb.files f]
    rfl
  have hw : (now s).w = update (fun _ => none) initproc (some e) := by
    funext q
    show (s.proc q).cwd = _
    rw [hb.cwd hinit, update_apply]
  have hnone : dwellers (fun _ => none) e' = 0 := tally_eq_zero.mpr fun _ _ => rfl
  have hup := dwellers_update (fun _ => none) initproc (some e) e'
  rw [hnone, if_neg (Option.some_ne_none e').symm] at hup
  simp only [Option.some.injEq, eq_comm (a := e)] at hup
  unfold Vfs.solid
  rw [hop, hw, show (now s).inodes = 0 from rfl, Multiset.count_zero]
  omega

/-- The invariant holds at boot. -/
theorem Booted.rest (hb : Booted s) : Rest s := by
  obtain ⟨e, he, hinit, hother⟩ := hb.inodes
  have hsolid := hb.solid hinit
  have hone : ∀ e', 0 < (s.itable e').ref → e' = e := by grind
  refine ⟨⟨?_, ?_, ?_, ?_, ?_, ?_, ?_, ?_, ?_, hb.disk.shape, hb.disk.size, hb.disk.inside⟩, ?_⟩
  · intro f
    have hdescs : descs (now s).o f = 0 := by
      refine tally_eq_zero.mpr fun x _ => ?_
      rw [show (now s).o x = none from hb.ofile x.1 x.2]
      rfl
    rw [hdescs, hb.files f]
    rfl
  · intro f _
    rw [hb.files f]
  · grind [Multiset.count_zero]
  · intro e1 e2 h1 h2 _ _
    rw [hone e1 h1, hone e2 h2]
  · intro e' hpos
    rw [hone e' hpos, he]
  · intro e' hpos
    rw [hone e' hpos, he]
    exact ⟨one_ne_zero, by decide⟩
  · grind
  · intro e' hpos _
    unfold Vfs.ip
    rw [hone e' hpos, he]
    show (s.node rootino).type ≠ .free
    rw [hb.disk.root]
    decide
  · exact fun i hi hn => absurd hn (hb.disk.links i hi)
  · intro q hq
    have hne : q ≠ initproc := by grind
    rw [hb.procs q hne]
    exact ⟨fun _ => rfl, rfl⟩

/-- Any calls by any processes. -/
def FileCalls : Notes Note Vfs → Vfs → Prop :=
  Reach (fun _ _ => True) Booted Call.prog

theorem Rest.prog (hr : Rest s) {c : ProcId × Call} (hrun : Call.prog c s = .ok ((), s', t)) :
    Done (c.2.leaver c.1) s s' t := by
  have hE : ∀ x, x ≠ noType → (fun _ => True : Halt → Prop) x := fun _ _ => trivial
  exact (wpn_prog hE hr (.inl trivial) c).ok hrun

/-- The invariant holds in every run. -/
theorem FileCalls.rest (h : FileCalls n s) : Rest s :=
  Reach.invariant (I := fun _ s => Rest s) (fun _ hb => hb.rest)
    (fun _ _ _ _ _ _ hr hrun _ => (hr.prog hrun).rest) h

/-- The descriptors of live processes that point to the file. -/
def slotsOf (s : Vfs) (f : FileId) : Finset (ProcId × Fd) :=
  {x | (s.proc x.1).life = .live ∧ (s.proc x.1).ofile x.2 = some f}

/-- The open files of the inode. -/
def filesOf (s : Vfs) (e : InodeId) : Finset FileId :=
  {f | 0 < (s.ftable f).ref ∧ (s.ftable f).type.refers e}

/-- The live processes in the directory. -/
def dwellersOf (s : Vfs) (e : InodeId) : Finset ProcId :=
  {q | (s.proc q).life = .live ∧ (s.proc q).cwd = some e}

/-- The count of a file is the number of its descriptors. -/
theorem Rest.descs (hr : Rest s) (f : FileId) : descs (now s).o f = (slotsOf s f).card := by
  refine tally_indicator fun x hx => ?_
  by_contra hlife
  have hno := (hr.idle x.1 hlife).1 x.2
  exact Option.some_ne_none f (hx.symm.trans hno)

/-- The number of open files of an inode. -/
theorem Rest.openers (hr : Rest s) (e : InodeId) : openers s.ftable e = (filesOf s e).card := by
  refine tally_indicator fun f hf => ?_
  by_contra hzero
  have hfile := hr.base.file f
  have hnone := hr.base.closed f (by omega)
  rw [hnone] at hf
  exact absurd hf Bool.false_ne_true

theorem Rest.dwellers (hr : Rest s) (e : InodeId) :
    dwellers (now s).w e = (dwellersOf s e).card := by
  refine tally_indicator fun q hq => ?_
  by_contra hlife
  exact Option.some_ne_none e (hq.symm.trans (hr.idle q hlife).2)

/-- A file that refers to the inode is open for it. -/
theorem not_refers_of_openers {ft : FileId → File} {e : InodeId}
    (h : openers ft e = 0) (f : FileId) : (ft f).type.refers e = false := by
  have := tally_eq_zero.mp h f (Finset.mem_univ f)
  by_contra hf
  rw [Bool.not_eq_false] at hf
  rw [hf] at this
  exact absurd this one_ne_zero

/-- References balance: between calls, every file has as many references
as descriptors point to it, every inode as many as files and current
directories do, and an inode has one entry; and what a call frees has no
links, and no descriptor and no current directory refers to it, but that
of the caller of `chdir` or `exit`, which gives it up. -/
theorem references_balance (h : FileCalls n s) : (∀ f, (s.ftable f).ref = (slotsOf s f).card)
      ∧ (∀ e, (s.itable e).ref = ((filesOf s e).card + (dwellersOf s e).card : Nat))
      ∧ (∀ e e', 0 < (s.itable e).ref → 0 < (s.itable e').ref →
          (s.itable e).dev = (s.itable e').dev → (s.itable e).inum = (s.itable e').inum → e = e')
      ∧ ∀ p c s' t, Call.prog (p, c) s = .ok ((), s', t) →
          ∀ e m, (Note.freed e, m) ∈ t → (m.ip e).nlink = 0
            ∧ (∀ q fd f, (m.proc q).ofile fd = some f → (m.ftable f).type.refers e = false)
            ∧ ∀ q, (m.proc q).cwd = some e → q = p ∧ (c = .exit ∨ ∃ path, c = .chdir path) := by
  have hr := h.rest
  refine ⟨?_, ?_, hr.base.unique, ?_⟩
  · intro f
    rw [hr.base.file, hr.descs, show (now s).files = 0 from rfl, Multiset.count_zero]
    exact Int.add_zero _
  · intro e
    rw [hr.base.inode, Multiset.count_zero]
    unfold solid
    rw [hr.openers, hr.dwellers, show (now s).inodes = 0 from rfl, Multiset.count_zero]
    exact Int.add_zero _
  · intro p c s' t hrun e m hm
    obtain ⟨hnl, hop, hcwd⟩ := (hr.prog hrun).frees _ hm e rfl
    refine ⟨hnl, fun _ _ f _ => not_refers_of_openers hop f, fun q hq => ?_⟩
    have hleave := hcwd q hq
    cases c with
    | chdir path => exact ⟨hleave, .inr ⟨path, rfl⟩⟩
    | exit => exact ⟨hleave, .inl rfl⟩
    | _ => exact hleave.elim

-- ======== one run

/-- A disk of ten inodes with an empty root. -/
def bootFs : Vfs where
  ninodes := 10
  node := fun i =>
    if i = 1 then ⟨.dir, 0, 0, 1, dots 1 1⟩ else ⟨.free, 0, 0, 0, []⟩
  itable := fun e => if e = 0 then ⟨1, 1, 1, true⟩ else ⟨0, 0, 0, false⟩
  ftable := fun _ => ⟨.none, 0⟩
  proc := fun q => if q = 0 then ⟨.live, fun _ => none, some 0⟩
    else ⟨.unused, fun _ => none, none⟩

theorem bootFs_disk : Disk bootFs := by
  have hroot : bootFs.node 1 = ⟨.dir, 0, 0, 1, dots 1 1⟩ := rfl
  have hfree : ∀ i, i ≠ 1 → bootFs.node i = ⟨.free, 0, 0, 0, []⟩ := fun i hi => if_neg hi
  refine ⟨fun i => ?_, by decide, fun i hi => ?_, fun i hi => ?_, rfl⟩
  · by_cases h1 : i = 1
    · rw [h1, hroot]
      refine ⟨fun _ => ⟨⟨1, [], rfl, one_ne_zero, nofun⟩, ?_⟩, fun hno => (hno rfl).elim⟩
      decide
    · rw [hfree i h1]
      exact ⟨nofun, fun _ => rfl⟩
  · by_cases h1 : i = 1
    · rw [h1]
      exact ⟨one_ne_zero, by decide⟩
    · rw [hfree i h1] at hi
      exact (hi rfl).elim
  · by_cases h1 : i = 1
    · rw [h1, hroot]
      decide
    · rw [hfree i h1] at hi
      exact (hi rfl).elim

/-- A file system with an empty root directory. -/
theorem bootFs_booted : Booted bootFs where
  disk := bootFs_disk
  files := fun _ => rfl
  inodes := ⟨0, rfl, rfl, fun _ hne => congrArg Ient.ref (if_neg hne)⟩
  procs := fun _ hne => if_neg hne

/-- The bytes of a path. -/
def ascii (l : List Char) : Path := l.map fun c => UInt8.ofNat c.toNat

/-- A file is created and unlinked while it is open. -/
def unlinkOpen : List (ProcId × Call) :=
  [(0, .open (ascii ['f']) 0x200 fun _ => true), (0, .unlink (ascii ['f']))]

/-- The entry a note frees. -/
def Note.freedEnt : Note → Option InodeId
  | .freed e => some e
  | _ => none

theorem bootFs_calls : FileCalls [] bootFs := .init bootFs_booted

/-- A call that evaluates to one freed entry, with what `f` reads off the
state in which it is freed. -/
theorem freed_of_run {α : Type} {c : ProcId × Call} {e : InodeId} {a : α} (f : Vfs → α)
    (h : ((Call.prog c s).toOption.map fun x => x.2.2.map fun k => (k.1.freedEnt, f k.2))
      = some [(some e, a)]) :
    ∃ s' m, Call.prog c s = .ok ((), s', [(.freed e, m)]) ∧ f m = a := by
  obtain ⟨⟨u, s', t⟩, hok, ht⟩ := Option.map_eq_some_iff.mp h
  cases hprog : Call.prog c s with
  | error x =>
    rw [hprog] at hok
    cases hok
  | ok r =>
    rw [hprog] at hok
    obtain rfl : r = (u, s', t) := Option.some.inj hok
    obtain ⟨⟨k, m⟩, rfl, hk⟩ := List.map_eq_singleton_iff.mp ht
    obtain ⟨hent, hf⟩ := Prod.mk.inj hk
    cases k with
    | freed e' =>
      obtain rfl : e' = e := Option.some.inj hent
      exact ⟨s', m, rfl, hf⟩
    | raises i => cases hent
    | adds d => cases hent

/-- Closing the descriptor of an unlinked file frees its inode. -/
theorem references_balance_close : ∃ n s, FileCalls n s
    ∧ (s.ftable 0).ref = 1 ∧ (slotsOf s 0).card = 1
    ∧ ∃ s' m, Call.prog (0, .close 0) s = .ok ((), s', [(.freed 1, m)]) ∧ (m.ip 1).nlink = 0 := by
  obtain ⟨n, s, hr, href, hclose⟩ := bootFs_calls.played (P := fun _ s => (s.ftable 0).ref = 1
    ∧ ((Call.prog (0, .close 0) s).toOption.map fun x => x.2.2.map fun k => (k.1.freedEnt, ()))
      = some [(some 1, ())]) (fun _ _ _ _ _ => trivial) unlinkOpen (by decide +kernel)
  obtain ⟨hfiles, -, -, hfrees⟩ := references_balance hr
  obtain ⟨s', m, hrun, -⟩ := freed_of_run (fun _ => ()) hclose
  refine ⟨n, s, hr, href, ?_, s', m, hrun, (hfrees 0 _ s' _ hrun 1 m List.mem_cons_self).1⟩
  have hcard := hfiles 0
  rw [href] at hcard
  exact (Int.natCast_inj.mp hcard).symm

/-- The directory that the first process is in is unlinked. -/
def unlinkCwd : List (ProcId × Call) :=
  [(0, .mkdir (ascii ['/', 'd']) fun _ => true), (0, .chdir (ascii ['/', 'd'])),
    (0, .unlink (ascii ['/', 'd']))]

/-- `chdir` away from an unlinked directory frees it while the caller's
`p->cwd` still refers to it. -/
theorem references_balance_chdir : ∃ n s, FileCalls n s
    ∧ ∃ s' m, Call.prog (0, .chdir (ascii ['/'])) s = .ok ((), s', [(.freed 1, m)])
      ∧ (m.proc 0).life = .live ∧ (m.proc 0).cwd = some 1 := by
  obtain ⟨n, s, hr, hchdir⟩ := bootFs_calls.played (P := fun _ s =>
    ((Call.prog (0, .chdir (ascii ['/'])) s).toOption.map fun x =>
      x.2.2.map fun k => (k.1.freedEnt, (k.2.proc 0).life, (k.2.proc 0).cwd))
        = some [(some 1, .live, some 1)]) (fun _ _ _ _ _ => trivial) unlinkCwd (by decide +kernel)
  obtain ⟨s', m, hrun, hm⟩ := freed_of_run (fun m => ((m.proc 0).life, (m.proc 0).cwd)) hchdir
  exact ⟨n, s, hr, s', m, hrun, congrArg Prod.fst hm, congrArg Prod.snd hm⟩

end Vfs

end GemOS
