/-
The file table, and `iput` of an inode the call holds.

`Mid` is the state in the middle of a call that began in `s0` and has left
the notes `t`: the references add up, the changes made so far are a
sequence of `Change`s, and whatever `iput` freed was held by nobody. Every
function is given by what it does to `Mid`; `Done` is a `Mid` in which the
call holds nothing, and so the state after it.
-/
import GemOS.Proofs.Changes

namespace GemOS

open Function Prog

namespace Vfs

/-- The call also keeps the file. -/
def Holds.file (h : Holds) (f : FileId) : Holds :=
  { h with files := f ::ₘ h.files }

/-- The call also keeps the inode. -/
def Holds.inode (h : Holds) (e : InodeId) : Holds :=
  { h with inodes := e ::ₘ h.inodes }

section

variable {h h' : Holds} {W : Multiset InodeId} {s s' : Vfs} {e : InodeId}
  {f : FileId} {i : Nat} {E : Halt → Prop}

theorem solid_inode (h : Holds) (s : Vfs) (e e' : InodeId) :
    solid (h.inode e) s e' = solid h s e' + if e' = e then 1 else 0 := by
  unfold solid
  rw [show (h.inode e).inodes = e ::ₘ h.inodes from rfl,
    show (h.inode e).w = h.w from rfl, Multiset.count_cons]
  omega

theorem solid_inode_self (h : Holds) (s : Vfs) (e : InodeId) :
    solid (h.inode e) s e = solid h s e + 1 := by
  rw [solid_inode, if_pos rfl]

theorem solid_inode_pos (h : Holds) (s : Vfs) (e : InodeId) : 0 < solid (h.inode e) s e := by
  rw [solid_inode_self]
  omega

theorem solid_inode_of_ne (h : Holds) (s : Vfs) {e e' : InodeId}
    (hne : e' ≠ e) : solid (h.inode e) s e' = solid h s e' := by
  rw [solid_inode, if_neg hne]
  rfl

-- ======== moving `Base`

/-- Files, descriptors and current directories change, and each inode is
held as often as before. -/
theorem Base.transfer (hb : Base h W s) (hit : s'.itable = s.itable)
    (hnode : s'.node = s.node) (hnin : s'.ninodes = s.ninodes)
    (hfile : ∀ f, (s'.ftable f).ref = descs h'.o f + h'.files.count f)
    (hclosed : ∀ f, (s'.ftable f).ref = 0 → (s'.ftable f).type = .none)
    (hsol : ∀ e, solid h' s' e = solid h s e) : Base h' W s' where
  file := hfile
  closed := hclosed
  inode := fun e => by rw [hit, hsol]; exact hb.inode e
  unique := by rw [hit]; exact hb.unique
  home := by rw [hit]; exact hb.home
  inum := by rw [hit]; exact hb.inum
  loaded := fun e he => by
    rw [hit]
    exact hb.loaded e (by rw [← hsol]; exact he)
  typed := by
    unfold Vfs.ip
    rw [hit, hnode]
    exact hb.typed
  kept := fun i hi hn => by
    rw [hnode] at hi hn
    obtain ⟨e, he, hs⟩ := hb.kept i hi hn
    exact ⟨e, by rw [hit]; exact he, by rw [hsol]; exact hs⟩
  shape := by rw [hnode]; exact hb.shape
  size := by rw [hnin]; exact hb.size
  inside := by rw [hnode, hnin]; exact hb.inside

/-- What a lookup ended with is held by the call from now on. -/
theorem Base.settle (hb : Base h (e ::ₘ W) s)
    (hv : (s.itable e).valid = true) : Base (h.inode e) W s where
  file := hb.file
  closed := hb.closed
  inode := fun e' => by
    rw [hb.inode, solid_inode, Multiset.count_cons]
    push_cast
    omega
  unique := hb.unique
  home := hb.home
  inum := hb.inum
  loaded := fun e' he' => by
    by_cases hne : e' = e
    · rw [hne]; exact hv
    · rw [solid_inode_of_ne h s hne] at he'
      exact hb.loaded e' he'
  typed := hb.typed
  kept := fun i hi hn => by
    obtain ⟨e', he', hs⟩ := hb.kept i hi hn
    refine ⟨e', he', ?_⟩
    rw [solid_inode]
    omega
  shape := hb.shape
  size := hb.size
  inside := hb.inside

/-- An inode changes; if it has no links it is held. -/
theorem Base.setNode (hb : Base h W s) {i : Nat} {d : Node}
    (htype : (s.node i).type ≠ .free → d.type ≠ .free) (hkept : d.type ≠ .free → d.nlink = 0 →
      ∃ e, (s.itable e).inum = i ∧ 0 < solid h s e)
    (hshape : Shape i d) (hin : d.type ≠ .free → i ≠ 0 ∧ i < s.ninodes) :
    Base h W { s with node := update s.node i d } := by
  have hself : update s.node i d i = d := update_self ..
  have hother : ∀ {x}, x ≠ i → update s.node i d x = s.node x := fun hx => update_of_ne hx ..
  refine { hb with
    typed := fun e hpos hv => ?_
    kept := fun x hx hn => ?_
    shape := fun x => ?_
    inside := fun x hx => ?_ }
  · show (update s.node i d (s.itable e).inum).type ≠ .free
    by_cases heq : (s.itable e).inum = i
    · rw [heq, hself]
      exact htype (heq ▸ hb.typed e hpos hv)
    · rw [hother heq]
      exact hb.typed e hpos hv
  all_goals
    dsimp only at *
    by_cases heq : x = i
  · subst heq
    rw [hself] at hx hn
    exact hkept hx hn
  · rw [hother heq] at hx hn
    exact hb.kept x hx hn
  · rw [heq, hself]
    exact hshape
  · rw [hother heq]
    exact hb.shape x
  · subst heq
    rw [hself] at hx
    exact hin hx
  · rw [hother heq] at hx
    exact hb.inside x hx

-- ======== `iput`

/-- What `iput` of a held inode has done, `h` being what is held after
it. -/
structure Put (h : Holds) (W : Multiset InodeId) (e : InodeId) (s s' : Vfs)
    (t : Notes Note Vfs) : Prop where
  base : Base h W s'
  freeing : Freeing s (s.itable e).inum t s'.node
  ninodes : s'.ninodes = s.ninodes
  ftable : s'.ftable = s.ftable
  proc : s'.proc = s.proc
  stays : ∀ e', e' ≠ e ∨ 0 < solid h s e' → Stays s s' e'
  unheld : ∀ n ∈ t, n = (.freed e, s) ∧ solid h s e = 0 ∧ (s.ip e).nlink = 0

/-- The last reference to an inode without links. -/
theorem Base.freed (hb : Base (h.inode e) W s) (he : e ∉ W) (href : (s.itable e).ref = 1)
    {d : Node} (hfree : d.type = .free) (hents : d.ents = [])
    {x : Ient} (hx : x = { s.itable e with valid := false, ref := 0 }) : Base h W { s with
      node := update s.node (s.itable e).inum d
      itable := update s.itable e x } := by
  have hin := hb.inode e
  rw [solid_inode_self, Multiset.count_eq_zero_of_notMem he] at hin
  have hzero : solid h s e = 0 := by omega
  have hpos : 0 < (s.itable e).ref := by omega
  have hother : ∀ e', e' ≠ e → 0 < (s.itable e').ref → (s.itable e').inum ≠ (s.itable e).inum :=
    fun e' hne hpos' hi => hne (hb.eq_of_inum hpos' hpos hi)
  have hx0 : x.ref = 0 := by rw [hx]
  refine ⟨hb.file, hb.closed, ?_, ?_, ?_, ?_, ?_, ?_, ?_, ?_, hb.size, ?_⟩
  · intro e'
    show (update s.itable e x e').ref = solid h s e' + _
    by_cases hne : e' = e
    · rw [hne, update_self, hzero, hx0, Multiset.count_eq_zero_of_notMem he]
      rfl
    · rw [update_of_ne hne, hb.inode, solid_inode_of_ne h s hne]
  · grind [update_apply, hb.unique]
  · grind [update_apply, hb.home]
  · grind [update_apply, hb.inum]
  · intro e' h'
    have h' : 0 < solid h s e' := h'
    have hne : e' ≠ e := by grind
    show (update s.itable e x e').valid = true
    rw [update_of_ne hne]
    exact hb.loaded e' (by rw [solid_inode_of_ne h s hne]; exact h')
  · intro e' h' hv
    unfold Vfs.ip
    dsimp only at h' hv ⊢
    by_cases hne : e' = e
    · rw [hne, update_self, hx0] at h'
      exact absurd h' (lt_irrefl _)
    · rw [update_of_ne hne] at h' hv ⊢
      rw [update_of_ne (hother e' hne h')]
      exact hb.typed e' h' hv
  · intro i hi hn
    dsimp only at hi hn
    have hne : i ≠ (s.itable e).inum := by grind [update_apply]
    rw [update_of_ne hne] at hi hn
    obtain ⟨e', he', hs⟩ := hb.kept i hi hn
    have hne' : e' ≠ e := by grind
    rw [solid_inode_of_ne h s hne'] at hs
    refine ⟨e', ?_, hs⟩
    show (update s.itable e x e').inum = i
    rw [update_of_ne hne']
    exact he'
  · intro i
    dsimp only
    by_cases hne : i = (s.itable e).inum
    · rw [hne, update_self]
      exact ⟨fun hd => absurd (hd.symm.trans hfree) (by decide), fun _ => hents⟩
    · rw [update_of_ne hne]
      exact hb.shape i
  · intro i hi
    dsimp only at hi
    by_cases hne : i = (s.itable e).inum
    · rw [hne, update_self] at hi
      exact absurd hfree hi
    · rw [update_of_ne hne] at hi
      exact hb.inside i hi

/-- A held inode is given back and goes on existing. -/
theorem Base.unhold (hb : Base (h.inode e) W s) (he : e ∉ W)
    (hlast : (s.itable e).ref = 1 → (s.ip e).nlink ≠ 0) {n : Int} (hn : n = (s.itable e).ref - 1) :
    Base h W { s with
      itable := update s.itable e { s.itable e with ref := n } } := by
  have hin := hb.inode e
  rw [solid_inode_self, Multiset.count_eq_zero_of_notMem he] at hin
  have hpos : 0 < (s.itable e).ref := by omega
  -- first the reference is a lookup's, then it is given up
  have hv : (s.itable e).valid = true := hb.loaded e (solid_inode_pos ..)
  have hb' : Base h (e ::ₘ W) s := by
    refine ⟨hb.file, hb.closed, ?_, hb.unique, hb.home, hb.inum, ?_,
      hb.typed, ?_, hb.shape, hb.size, hb.inside⟩
    · grind [hb.inode, solid_inode, Multiset.count_cons]
    · intro e' he'
      exact hb.loaded e' (by rw [solid_inode]; omega)
    · grind [hb.kept, Vfs.ip, solid_inode_of_ne]
  apply hb'.setRef W hpos _ fun _ hne => (count_cons_of_ne W hne).symm
  rw [Multiset.count_cons_self]
  push_cast
  omega

/-- The state after `iput` has freed the inode. -/
def scrapped (s : Vfs) (e : InodeId) : Vfs :=
  { s with
    node := update s.node (s.itable e).inum (s.ip e).clear
    itable := update s.itable e { s.itable e with valid := false, ref := 0 } }

theorem scrapped_inum (s : Vfs) (e e' : InodeId) :
    ((scrapped s e).itable e').inum = (s.itable e').inum := by
  unfold scrapped
  dsimp only
  by_cases hne : e' = e
  · rw [hne, update_self]
  · rw [update_of_ne hne]

/-- The last reference to a valid inode without links. -/
theorem wpn_iput_last (href : (s.itable e).ref = 1)
    (hv : (s.itable e).valid = true) (hn : (s.ip e).nlink = 0) :
    wpn E (iput e) (fun _ s' t => t = [(.freed e, s)] ∧ s' = scrapped s e) s := by
  unfold iput
  refine .get_bind (.ite (fun _ => ?_) fun hno => (hno ⟨href, hv, hn⟩).elim)
  unfold ifree
  refine .bind (M := fun _ s' t => t = [(.freed e, s)] ∧ s' = { s with
    node := update s.node (s.itable e).inum (s.ip e).clear
    itable := update s.itable e { s.itable e with valid := false } })
    (.note_bind (.get_bind (.modify_bind (.modify ⟨rfl, rfl⟩))))
    fun _ s' t hs' => .modify ?_
  obtain ⟨rfl, rfl⟩ := hs'
  refine ⟨rfl, ?_⟩
  unfold scrapped
  dsimp only
  rw [update_self, update_idem, href]
  rfl

theorem wpn_iput (hb : Base (h.inode e) W s) (he : e ∉ W) :
    wpn E (iput e) (fun _ s' t => Put h W e s s' t) s := by
  have hin := hb.inode e
  rw [solid_inode_self, Multiset.count_eq_zero_of_notMem he] at hin
  have hv : (s.itable e).valid = true := hb.loaded e (solid_inode_pos ..)
  have hpos : 0 < (s.itable e).ref := by omega
  by_cases hlast : (s.itable e).ref = 1 ∧ (s.ip e).nlink = 0
  · refine (wpn_iput_last hlast.1 hv hlast.2).mono fun _ s' t hs' => ?_
    obtain ⟨rfl, rfl⟩ := hs'
    refine ⟨hb.freed he hlast.1 rfl rfl rfl,
      .freed e rfl hlast.2 (hb.typed e hpos hv), rfl, rfl, rfl, ?_, ?_⟩
    · intro e' he'
      have hne : e' ≠ e := by grind
      simp [Stays, scrapped, hne]
    · intro n hn
      exact ⟨List.mem_singleton.mp hn, by omega, hlast.2⟩
  · unfold iput
    refine .get_bind (.ite (fun hyes => (hlast ⟨hyes.1, hyes.2.2⟩).elim)
      fun _ => .modify ⟨?_, .none, rfl, rfl, rfl, ?_, by simp⟩)
    · exact hb.unhold he (fun h1 hn => hlast ⟨h1, hn⟩) rfl
    · grind [stays_setEnt]

end

-- ======== in a call's middle

/-- The processes that give up what they have. -/
abbrev nobody : ProcId → Prop := fun _ => False

/-- The descriptors counted are those of the state, the processes `g`
apart. -/
def Slots (g : ProcId → Prop) (h : Holds) (s : Vfs) : Prop :=
  ∀ x, ¬ g x.1 → h.o x = (s.proc x.1).ofile x.2

/-- Only live processes have files and a current directory. -/
def Idle (s : Vfs) : Prop :=
  ∀ p, (s.proc p).life ≠ .live → (∀ fd, (s.proc p).ofile fd = none) ∧ (s.proc p).cwd = none

/-- What `iput` frees has no links, and no file and no current directory
refers to it but those of the processes `g`, which give it up. -/
def FreeOk (g : ProcId → Prop) (n : Note × Vfs) : Prop :=
  ∀ e, n.1 = .freed e → (n.2.ip e).nlink = 0 ∧ openers n.2.ftable e = 0
    ∧ ∀ q, (n.2.proc q).cwd = some e → g q

/-- In the middle of a call that began in `s0` and has left notes `t`. -/
structure Mid (g : ProcId → Prop) (s0 : Vfs) (t : Notes Note Vfs)
    (h : Holds) (W : Multiset InodeId) (s : Vfs) : Prop where
  base : Base h W s
  cwds : Cwds h s
  slots : Slots g h s
  idle : Idle s
  effects : Effects s0 t s
  frees : ∀ n ∈ t, FreeOk g n

/-- The call is over. -/
def Done (g : ProcId → Prop) (s0 s : Vfs) (t : Notes Note Vfs) : Prop :=
  ∃ h, h.files = 0 ∧ h.inodes = 0 ∧ Slots nobody h s ∧ Mid g s0 t h 0 s

section

variable {h h' : Holds} {W W' : Multiset InodeId} {s s' s0 : Vfs}
  {e : InodeId} {f : FileId} {i : Nat} {E : Halt → Prop} {p : ProcId}
  {g : ProcId → Prop} {t t' : Notes Note Vfs} {fd : Fd}

theorem Mid.done (hm : Mid nobody s0 t h 0 s) (hf : h.files = 0)
    (hi : h.inodes = 0) : Done nobody s0 s t := ⟨h, hf, hi, hm.slots, hm⟩

/-- The call returns. -/
theorem Mid.stop {α : Type} {a : α} (hm : Mid nobody s0 t h 0 s) (hf : h.files = 0)
    (hi : h.inodes = 0) : wpn E (pure a) (fun _ s' t' => Done nobody s0 s' (t ++ t')) s := by
  refine .pure ?_
  rw [List.append_nil]
  exact hm.done hf hi

/-- A change that the name space does not see. -/
theorem Mid.quiet (hm : Mid g s0 t h W s) (hb : Base h' W' s')
    (hnode : s'.node = s.node) (hnin : s'.ninodes = s.ninodes)
    (hcwd : ∀ q, cwdOf s' q = cwdOf s q) (hc : Cwds h' s')
    (hs : Slots g h' s') (hi : Idle s') : Mid g s0 t h' W' s' := by
  refine ⟨hb, hc, hs, hi, ?_, hm.frees⟩
  have hsame : Change s s' [] := .same hnode hcwd
  have heff := hm.effects.snoc hsame hnin
  rw [List.append_nil] at heff
  exact heff

/-- A change to the file table or of what the call holds. -/
theorem Mid.same (hm : Mid g s0 t h W s) (hb : Base h' W' s')
    (hnode : s'.node = s.node) (hnin : s'.ninodes = s.ninodes)
    (hit : s'.itable = s.itable) (hproc : s'.proc = s.proc)
    (ho : h'.o = h.o) (hw : h'.w = h.w) : Mid g s0 t h' W' s' := by
  refine hm.quiet hb hnode hnin ?_ ?_ ?_ ?_
  · intro q
    unfold cwdOf
    rw [hproc, hit]
  · intro q
    rw [hw, hproc]
    exact hm.cwds q
  · intro x hx
    rw [ho, hproc]
    exact hm.slots x hx
  · unfold Idle
    rw [hproc]
    exact hm.idle

theorem Mid.walk (hm : Mid g s0 t h W s) (hb : Base h W' s')
    (hw : Walk h s s') : Mid g s0 t h W' s' := by
  refine hm.quiet hb hw.quiet.node hw.quiet.ninodes (hw.cwdOf hm.cwds) (hw.cwds hm.cwds) ?_ ?_
  · intro x hx
    rw [hw.quiet.proc]
    exact hm.slots x hx
  · unfold Idle
    rw [hw.quiet.proc]
    exact hm.idle

theorem Mid.settle (hm : Mid g s0 t h (e ::ₘ W) s)
    (hv : (s.itable e).valid = true) : Mid g s0 t (h.inode e) W s :=
  hm.same (hm.base.settle hv) rfl rfl rfl rfl rfl rfl

/-- The current directories stay where they are. -/
theorem Put.cwdOf (hp : Put h W e s s' t) (hc : Cwds h s) (q : ProcId) :
    cwdOf s' q = cwdOf s q := by
  unfold Vfs.cwdOf
  rw [hp.proc]
  cases hq : (s.proc q).cwd with
  | none => rfl
  | some e' =>
    have hst := hp.stays e' (.inr (solid_of_cwd ((hc q).trans hq)))
    exact congrArg some hst.1

/-- Nobody refers to what is freed. -/
theorem Put.freeOk (hp : Put h W e s s' t)
    (hc : ∀ q, ¬ g q → h.w q = (s.proc q).cwd) : ∀ n ∈ t, FreeOk g n := by
  intro n hn e' he'
  obtain ⟨rfl, hz, hnl⟩ := hp.unheld n hn
  obtain rfl : e = e' := Note.freed.inj he'
  unfold solid at hz
  have hop : openers s.ftable e = 0 := by omega
  refine ⟨hnl, hop, fun q hq => ?_⟩
  by_contra hg
  have := dwellers_pos ((hc q hg).trans hq)
  omega

theorem Mid.put (hm : Mid g s0 t (h.inode e) W s)
    (hp : Put h W e s s' t') : Mid g s0 (t ++ t') h W s' where
  base := hp.base
  cwds := fun q => by rw [hp.proc]; exact hm.cwds q
  slots := fun x hx => by rw [hp.proc]; exact hm.slots x hx
  idle := by unfold Idle; rw [hp.proc]; exact hm.idle
  effects := hm.effects.snoc (.put _ hp.freeing (hp.cwdOf hm.cwds)) hp.ninodes
  frees := fun n hn => by
    rcases List.mem_append.mp hn with hn | hn
    · exact hm.frees n hn
    · exact hp.freeOk (fun q _ => hm.cwds q) n hn

theorem Mid.iput (hm : Mid g s0 t (h.inode e) W s) (he : e ∉ W) : wpn E (iput e)
      (fun _ s' t' => Mid g s0 (t ++ t') h W s' ∧ Put h W e s s' t') s :=
  (wpn_iput hm.base he).mono fun _ _ _ hp => ⟨hm.put hp, hp⟩

/-- The call puts the inode it holds, and returns. -/
theorem Mid.iputStop {α : Type} {a : α} (hm : Mid nobody s0 t (h.inode e) 0 s)
    (hf : h.files = 0) (hi : h.inodes = 0) :
    wpn E (do Vfs.iput e; return a) (fun _ s' t' => Done nobody s0 s' (t ++ t')) s := by
  refine .bind (hm.iput (Multiset.notMem_zero e)) fun _ s1 t1 hs1 => ?_
  simp only [← List.append_assoc]
  exact hs1.1.stop hf hi

-- ======== file counts

theorem openers_update (ft : FileId → File) (f : FileId) (x : File) (e : InodeId) :
    openers (update ft f x) e + (if (ft f).type.refers e then 1 else 0)
      = openers ft e + if x.type.refers e then 1 else 0 :=
  tally_update (Finset.mem_univ f) x

theorem descs_update (o : ProcId × Fd → Option FileId) (k : ProcId × Fd)
    (x : Option FileId) (f : FileId) : descs (update o k x) f + (if o k = some f then 1 else 0)
      = descs o f + if x = some f then 1 else 0 :=
  tally_update (Finset.mem_univ k) x

theorem dwellers_update (w : ProcId → Option InodeId) (p : ProcId)
    (x : Option InodeId) (e : InodeId) : dwellers (update w p x) e + (if w p = some e then 1 else 0)
      = dwellers w e + if x = some e then 1 else 0 :=
  tally_update (Finset.mem_univ p) x

theorem Base.file_held (hb : Base (h.file f) W s) :
    (s.ftable f).ref = descs h.o f + h.files.count f + 1 := by
  have hf := hb.file f
  unfold Holds.file at hf
  rw [Multiset.count_cons_self] at hf
  push_cast at hf
  rw [hf]
  exact (Int.add_assoc ..).symm

/-- The count of a file changes with what the call holds. -/
theorem Base.setFileRef (hb : Base h W s) {x : File}
    (hh : h'.o = h.o ∧ h'.w = h.w ∧ h'.inodes = h.inodes) (htype : x.type = (s.ftable f).type)
    (hzero : x.ref = 0 → x.type = .none) (href : x.ref = descs h.o f + h'.files.count f)
    (hother : ∀ f', f' ≠ f → h'.files.count f' = h.files.count f') :
    Base h' W { s with ftable := update s.ftable f x } := by
  refine hb.transfer rfl rfl rfl ?_ ?_ ?_
  · grind [update_apply, hb.file]
  · grind [update_apply, hb.closed]
  · intro e
    have := openers_update s.ftable f x e
    rw [htype] at this
    unfold solid
    rw [hh.2.1, hh.2.2]
    dsimp only
    omega

/-- File `f` has been taken from the table. -/
structure Taken (f : FileId) (s s' : Vfs) : Prop where
  itable : s'.itable = s.itable
  node : s'.node = s.node
  proc : s'.proc = s.proc
  type : (s'.ftable f).type = .none
  ref : (s'.ftable f).ref = 1
  old : (s.ftable f).ref = 0
  other : ∀ f', f' ≠ f → s'.ftable f' = s.ftable f'

theorem Mid.filealloc (hm : Mid g s0 t h W s) : wpn E filealloc (fun r s' t' => t' = [] ∧
      match r with
      | none => s' = s
      | some f => Mid g s0 t (h.file f) W s' ∧ Taken f s s') s := by
  unfold Vfs.filealloc
  refine .get_bind ?_
  split
  · next f hfind =>
    have hz : (s.ftable f).ref = 0 := by simpa using List.find?_some hfind
    have hf := hm.base.file f
    refine .modify_bind (.pure ⟨rfl, ?_, rfl, rfl, rfl, ?_, ?_, hz, ?_⟩)
    · grind [hm.same, hm.base.setFileRef, Holds.file, Multiset.count_cons_self,
        Multiset.count_cons_of_ne]
    · simpa using hm.base.closed f hz
    · simp
    · exact fun f' hne => update_of_ne hne ..
  · exact .pure ⟨rfl, rfl⟩

variable (hE : ∀ x, x ≠ noType → E x)

include hE

theorem wpn_filedup (hb : Base h W s) :
    wpn E (filedup f) (fun _ s' t' => t' = [] ∧ Base (h.file f) W s' ∧
      ∃ ft, s' = { s with ftable := ft }) s := by
  unfold Vfs.filedup
  refine .get_bind (.ite (fun _ => .fault (hE _ (by decide))) fun hpos => ?_)
  have hf := hb.file f
  refine .modify ⟨rfl, ?_, _, rfl⟩
  refine hb.setFileRef ⟨rfl, rfl, rfl⟩ rfl ?_ ?_ ?_
  · intro h0
    dsimp only at h0
    omega
  · grind [Holds.file, Multiset.count_cons_self]
  · exact fun f' hne => Multiset.count_cons_of_ne hne _

omit hE in
/-- The last reference to a file; its inode is the call's to put. -/
theorem Base.closeFile (hb : Base (h.file f) W s) (href : (s.ftable f).ref = 1) {x : File}
    (hx : x = { type := .none, ref := 0 }) (hh : h'.o = h.o ∧ h'.w = h.w ∧ h'.files = h.files)
    (hin : ∀ e, h'.inodes.count e
      = h.inodes.count e + if (s.ftable f).type.refers e then 1 else 0) :
    Base h' W { s with ftable := update s.ftable f x } := by
  have hf := hb.file_held
  refine hb.transfer rfl rfl rfl ?_ ?_ ?_
  · grind [update_apply, hb.file, Holds.file, Multiset.count_cons_of_ne]
  · grind [update_apply, hb.closed]
  · intro e
    have hup := openers_update s.ftable f x e
    have hno : x.type.refers e = false := by rw [hx]; rfl
    rw [hno, if_neg Bool.false_ne_true] at hup
    unfold solid
    rw [hh.2.1, hin]
    dsimp only [Holds.file]
    omega

theorem Mid.fileclose (hm : Mid g s0 t (h.file f) 0 s) :
    wpn E (fileclose f) (fun _ s' t' => Mid g s0 (t ++ t') h 0 s' ∧ s'.proc = s.proc) s := by
  have hf := hm.base.file_held
  unfold Vfs.fileclose
  refine .get_bind (.ite (fun _ => .fault (hE _ (by decide))) fun hpos =>
    .ite (fun hmore => .modify ⟨?_, rfl⟩) fun hlast => .modify_bind ?_)
  · rw [List.append_nil]
    refine hm.same ?_ rfl rfl rfl rfl rfl rfl
    refine hm.base.setFileRef ⟨rfl, rfl, rfl⟩ rfl ?_ ?_ ?_
    · intro h0
      dsimp only at h0
      omega
    · show (s.ftable f).ref - 1 = descs h.o f + h.files.count f
      omega
    · exact fun f' hne => (Multiset.count_cons_of_ne hne _).symm
  · have href : (s.ftable f).ref = 1 := by omega
    generalize hs1 : ({ s with ftable := _ } : Vfs) = s1
    have hput : ∀ ip : InodeId, (∀ e, (s.ftable f).type.refers e = (ip == e)) →
        wpn E (Vfs.iput ip) (fun _ s' t' => Mid g s0 (t ++ t') h 0 s' ∧ s'.proc = s.proc) s1 := by
      intro ip hip
      have hm' : Mid g s0 t (h.inode ip) 0 s1 := by
        rw [← hs1]
        refine hm.same ?_ rfl rfl rfl rfl rfl rfl
        refine hm.base.closeFile href rfl ⟨rfl, rfl, rfl⟩ fun e => ?_
        unfold Holds.inode
        rw [Multiset.count_cons, hip]
        simp only [beq_iff_eq, eq_comm (a := e)]
      refine (hm'.iput (Multiset.notMem_zero ip)).mono fun _ _ _ hp => ?_
      exact ⟨hp.1, hp.2.proc.trans (by rw [← hs1])⟩
    have hnone : (∀ e, (s.ftable f).type.refers e = false) →
        Mid g s0 (t ++ []) h 0 s1 ∧ s1.proc = s.proc := by
      intro hno
      rw [List.append_nil, ← hs1]
      refine ⟨hm.same ?_ rfl rfl rfl rfl rfl rfl, rfl⟩
      refine hm.base.closeFile href rfl ⟨rfl, rfl, rfl⟩ fun e => ?_
      rw [hno, if_neg Bool.false_ne_true]
      rfl
    split
    · next ip htype => exact hput ip fun e => by rw [htype]; rfl
    · next ip htype => exact hput ip fun e => by rw [htype]; rfl
    · next htype => exact .pure (hnone fun e => by rw [htype]; rfl)
    · next htype => exact .pure (hnone fun e => by rw [htype]; rfl)

-- ======== lookups

/-- The call goes on after a lookup step from `s`. -/
structure Looked (E : Halt → Prop) (h : Holds) (s s' : Vfs) : Prop where
  walk : Walk h s s'
  safe : Safe E s'

theorem Mid.namex {path : Path} {par : Bool} (hm : Mid g s0 t h 0 s) (hsafe : Safe E s) :
    wpn E (namex p path par) (fun r s' t' => t' = [] ∧ Looked E h s s' ∧ match r with
      | none => Mid g s0 t h 0 s'
      | some (e, _) => Mid g s0 t h {e} s' ∧ Reachable s' (s'.itable e).inum
          ∧ (par = true → (s'.itable e).valid = true ∧ (s'.ip e).type = .dir)) s := by
  refine (wpn_namex hE hm.base hm.cwds hsafe).mono fun r s' t' hr => ?_
  obtain ⟨ht, hw, hr⟩ := hr
  refine ⟨ht, ⟨hw, hsafe.walk hw hm.cwds⟩, ?_⟩
  split
  · exact hm.walk hr hw
  · exact ⟨hm.walk hr.1 hw, hr.2⟩

theorem Mid.namei {path : Path} (hm : Mid g s0 t h 0 s) (hsafe : Safe E s) :
    wpn E (namei p path) (fun r s' t' => t' = [] ∧ Looked E h s s' ∧ match r with
      | none => Mid g s0 t h 0 s'
      | some e => Mid g s0 t h {e} s' ∧ Reachable s' (s'.itable e).inum) s := by
  unfold Vfs.namei
  refine .quiet (hm.namex hE hsafe) fun r s' hr => .pure ⟨rfl, hr.1, ?_⟩
  obtain ⟨-, hr⟩ := hr
  cases r with
  | none => exact hr
  | some r => exact ⟨hr.1, hr.2.1⟩

theorem Mid.ilock (hm : Mid g s0 t h W s) (he : 0 < (s.itable e).ref)
    (hsafe : Safe E s) (hr : Reachable s (s.itable e).inum) :
    wpn E (ilock e) (fun _ s' t' => t' = [] ∧ Looked E h s s'
      ∧ Mid g s0 t h W s' ∧ (s'.itable e).valid = true
      ∧ ∀ e', Stays s s' e') s := by
  have hok := hsafe.allocated hm.base hm.cwds hr
  refine (wpn_ilock hE hm.base he hok).mono fun _ s' t' hs' => ?_
  obtain ⟨ht, hb', hv, hq, hst⟩ := hs'
  have hw : Walk h s s' := ⟨hq, fun e' _ => hst e'⟩
  exact ⟨ht, ⟨hw, hsafe.walk hw hm.cwds⟩, hm.walk hb' hw, hv, hst⟩

omit hE in
/-- An inode of the lookup is put, which frees nothing. -/
theorem Mid.iputWalk (hm : Mid g s0 t h (e ::ₘ W) s) :
    wpn E (Vfs.iput e) (fun _ s' t' => t' = [] ∧ Mid g s0 t h W s'
      ∧ Walk h s s' ∧ ∀ e', Stays s s' e') s := by
  refine (wpn_iput_walk hm.base).mono fun _ s' t' hs' => ?_
  obtain ⟨ht, hb', hq, hst⟩ := hs'
  have hw : Walk h s s' := ⟨hq, fun e' _ => hst e'⟩
  exact ⟨ht, hm.walk hb' hw, hw, hst⟩

omit hE in
theorem Mid.putStop {α : Type} {a : α} (hm : Mid nobody s0 t h {e} s) (hf : h.files = 0)
    (hi : h.inodes = 0) :
    wpn E (do Vfs.iput e; return a) (fun _ s' t' => Done nobody s0 s' (t ++ t')) s :=
  .quiet (Mid.iputWalk (W := 0) hm) fun _ _ hs => hs.1.stop hf hi

end

end Vfs

end GemOS
