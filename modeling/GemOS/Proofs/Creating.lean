/-
`create`.

The new inode has a type before it has links and, if it is a directory,
before it has its entries `.` and `..`, so that the references and shapes
of `Base` hold for it only at the end. Until then `Base` is about the state
without the new inode, and the state of the program is its `draft`: the
same with inode `d` in the place of the free one.
-/
import GemOS.Proofs.Leaving

namespace GemOS

open Function Prog

namespace Vfs

-- ======== entries of directories

section

variable {d p : Nat} {names ents : List Dirent} {de : Dirent} {name : Name} {room : Bool}

variable {x : Dirent} {l l' : List Dirent}

/-- A used entry in front stays where it is. -/
theorem addEntry_cons (hx : x.inum ≠ 0) : addEntry (x :: names) de room
      = (addEntry names de room).map (x :: ·) := by
  unfold addEntry
  have hno : (x.inum == 0) = false := by simpa using hx
  rw [List.findIdx?_cons, hno, if_neg Bool.false_ne_true]
  cases names.findIdx? fun de => de.inum == 0 with
  | some off => rfl
  | none => cases room with
    | true => rfl
    | false => rfl

theorem Added.cons (x : Dirent) (h : Added de l l') : Added de (x :: l) (x :: l') := by
  cases h with
  | slot front back old hz => exact .slot (x :: front) back old hz
  | last => exact .last (x :: l)

/-- A free slot is taken, or the directory grows. -/
theorem addEntry_added : ∀ {names ents : List Dirent},
    addEntry names de room = some ents → Added de names ents
  | [], ents, h => by
    unfold addEntry at h
    cases room with
    | true => exact Option.some.inj h ▸ .last []
    | false => cases h
  | x :: names, ents, h => by
    by_cases hx : x.inum = 0
    · unfold addEntry at h
      have hyes : (x.inum == 0) = true := by simpa using hx
      rw [List.findIdx?_cons, hyes, if_pos rfl] at h
      exact Option.some.inj h ▸ .slot [] names x hx
    · rw [addEntry_cons hx] at h
      obtain ⟨l, hl, rfl⟩ := Option.map_eq_some_iff.mp h
      exact (addEntry_added hl).cons x

/-- An entry added to a directory goes after `.` and `..`. -/
theorem addEntry_dots (hd : d ≠ 0) (hp : p ≠ 0)
    (h : addEntry (dots d p ++ names) de room = some ents) :
    ∃ names', ents = dots d p ++ names' ∧ Added de names names' := by
  unfold dots at h
  rw [List.cons_append, addEntry_cons hd, List.cons_append,
    addEntry_cons hp, List.nil_append, Option.map_map] at h
  obtain ⟨l, hl, rfl⟩ := Option.map_eq_some_iff.mp h
  exact ⟨l, rfl, addEntry_added hl⟩

theorem Added.mem (h : Added de l l') (hx : x ∈ l') : x = de ∨ x ∈ l := by
  cases h with
  | slot front back old hz => grind
  | last =>
    simp only [List.mem_append, List.mem_singleton] at hx
    exact hx.symm

/-- A name that is not found is neither `.` nor `..`. -/
theorem ne_dots_of_findName (hd : d ≠ 0) (hp : p ≠ 0)
    (h : findName (dots d p ++ names) name = none) : name ≠ dot ∧ name ≠ dotdot := by
  unfold findName at h
  rw [List.findIdx?_eq_none_iff] at h
  have hdot := h ⟨d, dot⟩ (by simp [dots])
  have hdd := h ⟨p, dotdot⟩ (by simp [dots])
  simp only [Bool.and_eq_false_iff, decide_eq_false_iff_not, beq_eq_false_iff_ne] at hdot hdd
  constructor
  · exact fun heq => (hdot.resolve_left (fun h => h hd)) heq.symm
  · exact fun heq => (hdd.resolve_left (fun h => h hp)) heq.symm

/-- A directory with one more name. -/
theorem DirShape.added (h : DirShape d ents) (hd : d ≠ 0)
    (hfind : findName ents name = none) {i : Nat} (hi : i < 2 ^ 16)
    {ents' : List Dirent} (hadd : addEntry ents ⟨i, name⟩ room = some ents') :
    DirShape d ents' ∧ ∃ p names names', ents = Vfs.dots d p ++ names
      ∧ Added ⟨i, name⟩ names names' ∧ ents' = Vfs.dots d p ++ names' := by
  obtain ⟨p, names, rfl, hp, hnames⟩ := h.dots
  have hname := ne_dots_of_findName hd hp hfind
  obtain ⟨names', rfl, hadded⟩ := addEntry_dots hd hp hadd
  refine ⟨⟨⟨p, names', rfl, hp, fun x hx hx0 => ?_⟩, fun x hx => ?_⟩,
    p, names, names', rfl, hadded, rfl⟩
  · grind [hadded.mem]
  · rcases List.mem_append.mp hx with hx | hx
    · exact h.bound x (List.mem_append_left _ hx)
    · rcases hadded.mem hx with rfl | hx
      · exact hi
      · exact h.bound x (List.mem_append_right _ hx)

end

-- ======== the new inode

/-- The state with one inode changed. -/
def withNode (s : Vfs) (i : Nat) (d : Node) : Vfs :=
  { s with node := update s.node i d }

/-- The state with inode `d` for the free one of entry `e`. -/
def draft (s : Vfs) (e : InodeId) (d : Node) : Vfs :=
  { s with
    node := update s.node (s.itable e).inum d
    itable := update s.itable e { s.itable e with valid := true } }

section

variable {h h' : Holds} {W W' : Multiset InodeId} {s s' s0 : Vfs}
  {e dp : InodeId} {i : Nat} {d d' : Node} {E : Halt → Prop} {p : ProcId}
  {g : ProcId → Prop} {t t' : Notes Note Vfs}

theorem draft_self (s : Vfs) (e : InodeId) (d : Node) :
    (draft s e d).itable e = { s.itable e with valid := true } :=
  update_self ..

theorem draft_of_ne (s : Vfs) (d : Node) {e' : InodeId} (hne : e' ≠ e) :
    (draft s e d).itable e' = s.itable e' := update_of_ne hne ..

theorem draft_inum (s : Vfs) (e : InodeId) (d : Node) (e' : InodeId) :
    ((draft s e d).itable e').inum = (s.itable e').inum := by
  by_cases hne : e' = e
  · rw [hne, draft_self]
  · rw [draft_of_ne s d hne]

theorem draft_node (s : Vfs) (e : InodeId) (d : Node) :
    (draft s e d).node (s.itable e).inum = d := update_self ..

theorem draft_node_of_ne (s : Vfs) (d : Node)
    (hne : i ≠ (s.itable e).inum) : (draft s e d).node i = s.node i :=
  update_of_ne hne ..

theorem draft_ip (s : Vfs) (e : InodeId) (d : Node) : (draft s e d).ip e = d := by
  unfold Vfs.ip
  rw [draft_inum, draft_node]

/-- The new inode changes. -/
theorem draft_setNode (s : Vfs) (e : InodeId) (d d' : Node) :
    withNode (draft s e d) (s.itable e).inum d' = draft s e d' := by
  unfold withNode draft
  dsimp only
  rw [update_idem]

/-- The state without the new inode, of entry `e`; `dp` is its parent. -/
structure Blank (h : Holds) (e dp : InodeId) (s : Vfs) : Prop where
  base : Base h (e ::ₘ {dp}) s
  free : (s.ip e).type = .free
  inside : (s.itable e).inum ≠ 0 ∧ (s.itable e).inum < s.ninodes
  valid : (s.itable dp).valid = true
  dir : (s.ip dp).type = .dir

section

variable (hb : Blank h e dp s)

include hb

theorem Blank.pos : 0 < (s.itable e).ref :=
  hb.base.ref_pos_of_mem (Multiset.mem_cons_self e _)

theorem Blank.dir_pos : 0 < (s.itable dp).ref :=
  hb.base.ref_pos_of_mem (Multiset.mem_cons_of_mem (Multiset.mem_singleton_self dp))

theorem Blank.invalid : (s.itable e).valid = false := by
  rw [Bool.eq_false_iff]
  exact fun hv => hb.base.typed e hb.pos hv hb.free

theorem Blank.ne : dp ≠ e := by
  intro heq
  have hv := hb.valid
  rw [heq, hb.invalid] at hv
  cases hv

theorem Blank.inum_ne : (s.itable dp).inum ≠ (s.itable e).inum := by
  exact fun hi => hb.ne (hb.base.eq_of_inum hb.dir_pos hb.pos hi)

theorem Blank.unheld : solid h s e = 0 := by
  by_contra hs
  have hv := hb.base.loaded e (by omega)
  rw [hb.invalid] at hv
  cases hv

/-- Nobody refers to the new inode. -/
theorem Blank.unheld_by (hc : Cwds h s) :
    openers s.ftable e = 0 ∧ ∀ q, (s.proc q).cwd = some e → g q := by
  have hz := hb.unheld
  unfold solid at hz
  refine ⟨by omega, fun q hq => ?_⟩
  have := dwellers_pos ((hc q).trans hq)
  omega

theorem Blank.ref : (s.itable e).ref = 1 := by
  have hin := hb.base.inode e
  have hno : e ∉ ({dp} : Multiset InodeId) := fun hm => hb.ne (Multiset.mem_singleton.mp hm).symm
  rw [hb.unheld, Multiset.count_cons_self, Multiset.count_eq_zero_of_notMem hno] at hin
  exact hin

theorem Blank.draft_dp (d : Node) : (draft s e d).ip dp = s.ip dp := by
  unfold Vfs.ip
  rw [draft_inum, draft_node_of_ne s d hb.inum_ne]

end

/-- Notes that free nothing. -/
def NoFree (t : Notes Note Vfs) : Prop := ∀ n ∈ t, ∀ e, n.1 ≠ .freed e

theorem noFree_nil : NoFree [] := nofun

theorem noFree_cons {n : Note × Vfs} (hn : ∀ e, n.1 ≠ .freed e) (ht : NoFree t) :
    NoFree (n :: t) := List.forall_mem_cons.mpr ⟨hn, ht⟩

theorem NoFree.freeOk (ht : NoFree t) : ∀ n ∈ t, FreeOk g n := fun n hn e he => (ht n hn e he).elim

theorem Mid.notes (hm : Mid g s0 t h W s) (ht : NoFree t') : Mid g s0 (t ++ t') h W s := { hm with
    effects := hm.effects.snoc (.same rfl fun _ => rfl) rfl
    frees := fun n hn => (List.mem_append.mp hn).elim (hm.frees n) (ht.freeOk n) }

-- ======== `dirlink`

variable {name : Name} {room : Nat → Bool} {ents : List Dirent} {type : IType}
  {major minor : Int16} {path : Path}

theorem wpn_dirlookup_none (hdir : (s.ip dp).type = .dir)
    (hfind : findName (s.ip dp).ents name = none) :
    wpn E (dirlookup dp name) (fun r s' t' => t' = [] ∧ r = none ∧ s' = s) s := by
  unfold dirlookup
  refine .get_bind (.ite (fun hno => (hno hdir).elim) fun _ => ?_)
  rw [hfind]
  exact .pure ⟨rfl, rfl, rfl⟩

/-- The state after an entry has been written to `dp`. -/
def withEnts (s : Vfs) (dp : InodeId) (ents : List Dirent) : Vfs :=
  withNode s (s.itable dp).inum { s.ip dp with ents := ents }

/-- `dirlink` of a name that is not there. -/
theorem wpn_dirlink_new {n : Nat} {room : Bool} (hdir : (s.ip dp).type = .dir)
    (hfind : findName (s.ip dp).ents name = none) : wpn E (dirlink dp name n room) (fun r s' t' =>
      match addEntry (s.ip dp).ents ⟨n % 2 ^ 16, name⟩ room with
      | some ents => r = true ∧ t' = [(.adds (s.itable dp).inum, s)] ∧ s' = withEnts s dp ents
      | none => r = false ∧ t' = [] ∧ s' = s) s := by
  unfold dirlink
  refine .quiet (wpn_dirlookup_none hdir hfind) fun r s' hr => ?_
  obtain ⟨rfl, rfl⟩ := hr
  refine .get_bind ?_
  cases addEntry (s'.ip dp).ents ⟨n % 2 ^ 16, name⟩ room with
  | some ents => exact .note_bind (.modify_bind (.pure ⟨rfl, rfl, rfl⟩))
  | none => exact .pure ⟨rfl, rfl, rfl⟩

/-- An entry is written to the new directory. -/
theorem withEnts_draft (s : Vfs) (e : InodeId) (d : Node) (ents : List Dirent) :
    withEnts (draft s e d) e ents = draft s e { d with ents := ents } := by
  unfold withEnts
  rw [draft_inum, draft_ip]
  exact draft_setNode s e d _

theorem addEntry_dotdot {p : Nat} {room : Bool} (hi : i ≠ 0) : addEntry [⟨i, dot⟩] ⟨p, dotdot⟩ room
      = if room then some (dots i p) else none := by
  rw [addEntry_cons hi]
  cases room with
  | true => rfl
  | false => rfl

theorem findName_dot (i : Nat) : findName [⟨i, dot⟩] dotdot = none := by
  unfold findName
  rw [List.findIdx?_cons, show (dot == dotdot) = false from by decide, Bool.and_false]
  rfl

/-- The entries `.` and `..` are written, or not both of them. -/
theorem wpn_createDots (hb : Blank h e dp s) (hdir : d.type = .dir) (hnil : d.ents = []) :
    wpn E (createDots e dp room) (fun r s' t' => NoFree t' ∧
      ∃ ents, s' = draft s e { d with ents := ents } ∧ (r = true →
        ents = dots (s.itable e).inum (s.itable dp).inum)) (draft s e d) := by
  have hmod : ∀ x : InodeId, 0 < (s.itable x).ref →
      (s.itable x).inum % 2 ^ 16 = (s.itable x).inum :=
    fun x hx => Nat.mod_eq_of_lt (hb.base.inum x hx).2
  unfold createDots
  refine .get_bind (.bind (wpn_dirlink_new ?_ ?_) fun r s1 t1 hr => ?_)
  · rw [draft_ip]; exact hdir
  · rw [draft_ip, hnil]; rfl
  rw [draft_ip, hnil, draft_inum, hmod e hb.pos] at hr
  cases hroom : room 0 with
  | false =>
    rw [hroom] at hr
    obtain ⟨rfl, rfl, rfl⟩ := hr
    exact .pure ⟨nofun, [], by rw [← hnil], nofun⟩
  | true =>
    rw [hroom] at hr
    obtain ⟨rfl, rfl, rfl⟩ := hr
    rw [withEnts_draft, draft_inum]
    refine (wpn_dirlink_new ?_ ?_).mono fun r s2 t2 hr => ?_
    · rw [draft_ip]; exact hdir
    · rw [draft_ip]
      exact findName_dot _
    rw [draft_ip, hmod dp hb.dir_pos] at hr
    change match addEntry [⟨(s.itable e).inum, dot⟩] _ _ with
      | some ents => _ | none => _ at hr
    rw [addEntry_dotdot hb.inside.1] at hr
    cases hroom : room 1 with
    | false =>
      rw [hroom] at hr
      obtain ⟨rfl, rfl, rfl⟩ := hr
      exact ⟨noFree_cons nofun noFree_nil, _, rfl, nofun⟩
    | true =>
      rw [hroom] at hr
      obtain ⟨rfl, rfl, rfl⟩ := hr
      exact ⟨noFree_cons nofun (noFree_cons nofun noFree_nil), _, withEnts_draft .., fun _ => rfl⟩

-- ======== failure

theorem Mid.cwdOf_of_inum (hproc : s'.proc = s.proc)
    (hinum : ∀ e, (s'.itable e).inum = (s.itable e).inum) (q : ProcId) :
    cwdOf s' q = cwdOf s q := by
  unfold cwdOf
  rw [hproc]
  simp only [hinum]

/-- The new inode is freed again, and the state is as before it. -/
theorem Blank.scrap (hb : Blank h e dp s) (d : Node) : Base h {dp} (scrapped (draft s e d) e) := by
  have hb1 := hb.base.setRef {dp} hb.pos 0 (fun _ hne => (count_cons_of_ne {dp} hne).symm) (by
      rw [hb.ref, Multiset.count_cons_self]
      push_cast
      omega)
  have hb2 := hb1.setNode (i := (s.itable e).inum) (d := d.clear) (fun hi => (hi hb.free).elim)
    (fun hi => (hi rfl).elim) ⟨nofun, fun _ => rfl⟩ fun hi => (hi rfl).elim
  grind [scrapped, draft, draft_ip, draft_inum, draft_self, update_idem, hb.invalid]

/-- The end of `create` when something went wrong. -/
theorem Mid.createFail (hm : Mid g s0 t h (e ::ₘ {dp}) s) (hb : Blank h e dp s) :
    wpn E (createFail e dp) (fun r s' t' => r = none
      ∧ Mid g s0 (t ++ t') h 0 s' ∧ s'.proc = s.proc) (draft s e d) := by
  unfold Vfs.createFail setNlink
  refine .bind (M := fun _ s' t' => t' = [] ∧
    s' = draft s e { d with nlink := 0 }) (.get_bind (.modify ⟨rfl, ?_⟩)) ?_
  · rw [draft_inum, draft_node]
    exact draft_setNode s e d _
  intro _ s1 t1 hs1
  obtain ⟨rfl, rfl⟩ := hs1
  refine .bind (wpn_iput_last ?_ ?_ ?_) fun _ s2 t2 hs2 => ?_
  · rw [draft_self]; exact hb.ref
  · rw [draft_self]
  · rw [draft_ip]
  obtain ⟨rfl, rfl⟩ := hs2
  generalize hd' : { d with nlink := 0 } = d'
  have hnl : d'.nlink = 0 := by rw [← hd']
  have hinum : ∀ x, ((scrapped (draft s e d') e).itable x).inum
      = (s.itable x).inum := fun x => by rw [scrapped_inum, draft_inum]
  have hnode : (scrapped (draft s e d') e).node = update s.node (s.itable e).inum d'.clear := by
    unfold scrapped
    dsimp only
    rw [draft_inum, draft_ip]
    exact update_idem ..
  have hm2 : Mid g s0 (t ++ [(.freed e, draft s e d')]) h {dp} (scrapped (draft s e d') e) := by
    refine ⟨hb.scrap d', hm.cwds, hm.slots, hm.idle, ?_, ?_⟩
    · refine hm.effects.snoc (.scrap (s.itable e).inum hb.free ?_ ?_ ?_
        (Mid.cwdOf_of_inum rfl hinum)) rfl
      · rw [hnode, update_self]; rfl
      · rw [hnode, update_self]; rfl
      · intro x hx
        rw [hnode, update_of_ne hx]
    · intro n hn
      rcases List.mem_append.mp hn with hn | hn
      · exact hm.frees n hn
      · obtain rfl := List.mem_singleton.mp hn
        intro e' he'
        obtain rfl : e = e' := Note.freed.inj he'
        exact ⟨by rw [draft_ip]; exact hnl, hb.unheld_by hm.cwds⟩
  refine .quiet (Mid.iputWalk (W := 0) hm2) fun _ s3 hs3 => .pure ?_
  rw [List.append_nil, List.nil_append]
  exact ⟨rfl, hs3.1, hs3.2.1.quiet.proc⟩

-- ======== success

/-- The directory with its new entry, and `..` of a new directory
counted. -/
def parentNode (d : Node) (ents : List Dirent) (type : IType) : Node :=
  { d with
    ents := ents
    nlink := d.nlink + if type = .dir then 1 else 0 }

/-- The state after `create` has linked the new inode. -/
def linked (s : Vfs) (e dp : InodeId) (d : Node) (ents : List Dirent) :
    Vfs :=
  withNode (draft s e d) (s.itable dp).inum (parentNode (s.ip dp) ents d.type)

/-- The new inode before it has entries. -/
def newNode (type : IType) (major minor : Int16) : Node :=
  { type := type, major := major, minor := minor, nlink := 1, ents := [] }

/-- A new inode: it has one link, and `.` and `..` if it is a directory. -/
structure Fresh (s : Vfs) (e dp : InodeId) (d : Node) : Prop where
  type : d.type ≠ .free
  nlink : d.nlink = 1
  ents : d.ents = if d.type = .dir
    then dots (s.itable e).inum (s.itable dp).inum else []

theorem Fresh.shape (hd : Fresh s e dp d) (hb : Blank h e dp s) : Shape (s.itable e).inum d := by
  have hdp := hb.base.inum dp hb.dir_pos
  have he := hb.base.inum e hb.pos
  constructor
  · intro hdir
    rw [hd.ents, if_pos hdir]
    refine ⟨⟨_, [], (List.append_nil _).symm, hdp.1, nofun⟩, ?_⟩
    intro de hde
    simp only [dots, List.mem_cons, List.not_mem_nil, or_false] at hde
    rcases hde with rfl | rfl
    · exact he.2
    · exact hdp.2
  · intro hdir
    rw [hd.ents, if_neg hdir]

theorem linked_dir (s : Vfs) (e dp : InodeId) (d : Node) (ents : List Dirent) :
    (linked s e dp d ents).node (s.itable dp).inum
      = parentNode (s.ip dp) ents d.type := update_self ..

theorem linked_new (hne : (s.itable dp).inum ≠ (s.itable e).inum) (d : Node) (ents : List Dirent) :
    (linked s e dp d ents).node (s.itable e).inum = d :=
  (update_of_ne hne.symm ..).trans (draft_node s e d)

theorem linked_other (d : Node) (ents : List Dirent)
    (hd : i ≠ (s.itable dp).inum) (he : i ≠ (s.itable e).inum) :
    (linked s e dp d ents).node i = s.node i :=
  (update_of_ne hd ..).trans (draft_node_of_ne s d he)

theorem linked_inum (s : Vfs) (e dp : InodeId) (d : Node) (ents : List Dirent) (e' : InodeId) :
    ((linked s e dp d ents).itable e').inum = (s.itable e').inum :=
  draft_inum s e d e'

/-- The references still add up. -/
theorem Blank.link (hb : Blank h e dp s) (hd : Fresh s e dp d)
    (hents : DirShape (s.itable dp).inum ents) : Base (h.inode dp) {e} (linked s e dp d ents) := by
  have hb1 : Base (h.inode dp) {e} s := by
    refine Base.settle ?_ hb.valid
    rw [show dp ::ₘ {e} = e ::ₘ {dp} from Multiset.cons_swap dp e 0]
    exact hb.base
  -- the inodes first, then the entry of the new one
  have hb2 := hb1.setNode (i := (s.itable e).inum) (fun _ => hd.type)
    (fun _ hn => absurd (hd.nlink.symm.trans hn) (by decide)) (hd.shape hb) fun _ => hb.inside
  have hdp : (s.ip dp).type ≠ .free := by
    rw [hb.dir]
    decide
  have hb3 := hb2.setNode (i := (s.itable dp).inum) (d := parentNode (s.ip dp) ents d.type)
    (fun _ => hdp) (fun _ _ => ⟨dp, rfl, solid_inode_pos ..⟩)
    ⟨fun _ => hents, fun hno => (hno hb.dir).elim⟩ fun _ => hb.base.inside _ hdp
  refine hb3.setEnt {e} rfl (fun _ _ => rfl) (hb1.inode e) (hb1.home e hb.pos) (hb1.inum e hb.pos)
    (fun e' hne' hpos' hi' => ?_) (fun _ => ⟨rfl, rfl⟩) fun _ => ?_
  · exact hne' (hb1.eq_of_inum hpos' hb.pos hi')
  · show ((linked s e dp d ents).node (s.itable e).inum).type ≠ .free
    rw [linked_new hb.inum_ne]
    exact hd.type

/-- The new inode and its name. -/
theorem Blank.created (hb : Blank h e dp s) (hd : Fresh s e dp d)
    (hreach : Reachable s (s.itable dp).inum) {p : Nat} {names names' : List Dirent}
    (hold : (s.ip dp).ents = dots (s.itable dp).inum p ++ names)
    (hadd : Added ⟨(s.itable e).inum, name⟩ names names')
    (hents : ents = dots (s.itable dp).inum p ++ names')
    (hadds : ∃ m, (Note.adds (s.itable dp).inum, m) ∈ t ∧ m.node (s.itable dp).inum = s.ip dp)
    (hraises : d.type = .dir → ∃ m, (Note.raises (s.itable dp).inum, m) ∈ t
      ∧ (m.node (s.itable dp).inum).nlink = (s.ip dp).nlink) :
    Created s (linked s e dp d ents) t (s.itable dp).inum (s.itable e).inum name d.type where
  reach := hreach
  free := hb.free
  inum := hb.inside
  type_ne := hd.type
  names := by
    refine ⟨p, names, names', ⟨hb.dir, hold⟩, hadd, ?_⟩
    rw [linked_dir, hents]
    rfl
  made := by
    rw [linked_new hb.inum_ne]
    exact ⟨rfl, hd.nlink, hd.ents⟩
  other := fun x hx hx' => linked_other d ents hx hx'
  adds := hadds
  raises := hraises

/-- The call goes on with the new inode linked. -/
theorem Mid.linkNew (hm : Mid g s0 t h (e ::ₘ {dp}) s) (hb : Blank h e dp s)
    (hd : Fresh s e dp d) (hreach : Reachable s (s.itable dp).inum)
    {room : Bool} (hfind : findName (s.ip dp).ents name = none)
    (hadd : addEntry (s.ip dp).ents ⟨(s.itable e).inum, name⟩ room = some ents)
    (t' : Notes Note Vfs) (ht : NoFree t')
    (hadds : ∃ m, (Note.adds (s.itable dp).inum, m) ∈ t' ∧ m.node (s.itable dp).inum = s.ip dp)
    (hraises : d.type = .dir → ∃ m, (Note.raises (s.itable dp).inum, m) ∈ t'
      ∧ (m.node (s.itable dp).inum).nlink = (s.ip dp).nlink) :
    Mid g s0 (t ++ t') (h.inode dp) {e} (linked s e dp d ents) := by
  obtain ⟨hshape, p, names, names', hold, hadded, hents⟩ :=
    ((hb.base.shape _).dir hb.dir).added (hb.base.inum dp hb.dir_pos).1 hfind
      (hb.base.inum e hb.pos).2 hadd
  have hcreated := hb.created hd hreach hold hadded hents hadds hraises
  refine ⟨hb.link hd hshape, hm.cwds, hm.slots, hm.idle, ?_, ?_⟩
  · refine hm.effects.snoc (.create _ _ _ _ hcreated ?_) rfl
    exact Mid.cwdOf_of_inum rfl (linked_inum s e dp d ents)
  · grind [hm.frees, ht.freeOk]

theorem wpn_raiseNlink (e : InodeId) : wpn E (raiseNlink e) (fun _ s' t' =>
      t' = [(.raises (s.itable e).inum, s)]
      ∧ s' = withNode s (s.itable e).inum { s.ip e with nlink := (s.ip e).nlink + 1 }) s :=
  .get_bind (.note_bind (.get_bind (.modify ⟨rfl, rfl⟩)))

/-- What `create` ends with. -/
def CreateEnd (g : ProcId → Prop) (s0 : Vfs) (t : Notes Note Vfs)
    (h : Holds) (r : Option InodeId) (s' : Vfs) : Prop :=
  match r with
  | none => Mid g s0 t h 0 s'
  | some e => Mid g s0 t h {e} s' ∧ (s'.itable e).valid = true

theorem Mid.iputDir (hm : Mid g s0 t (h.inode dp) {e} s) (hne : dp ≠ e)
    (hv : (s.itable e).valid = true) :
    wpn E (do Vfs.iput dp; return some e) (fun r s' t' => s'.proc = s.proc
      ∧ CreateEnd g s0 (t ++ t') h r s') s := by
  have hno : dp ∉ ({e} : Multiset InodeId) := fun hm => hne (Multiset.mem_singleton.mp hm)
  refine .bind (hm.iput hno) fun _ s1 t1 hs1 => .pure ?_
  obtain ⟨hm1, hput⟩ := hs1
  rw [List.append_nil]
  exact ⟨hput.proc, hm1, (hput.stays e (.inl hne.symm)).2 hv⟩

/-- The new inode gets its name. -/
theorem Mid.createLink (hm : Mid g s0 t h (e ::ₘ {dp}) s) (hb : Blank h e dp s)
    (hd : Fresh s e dp d) (hreach : Reachable s (s.itable dp).inum)
    (hfind : findName (s.ip dp).ents name = none) :
    wpn E (createLink e dp name d.type room) (fun r s' t' =>
      s'.proc = s.proc ∧ CreateEnd g s0 (t ++ t') h r s')
      (draft s e d) := by
  have hdp := hb.draft_dp d
  unfold Vfs.createLink
  refine .get_bind (.bind (wpn_dirlink_new ?_ ?_) fun r s1 t1 hr => ?_)
  · rw [hdp]; exact hb.dir
  · rw [hdp]; exact hfind
  rw [hdp, draft_inum, draft_inum, Nat.mod_eq_of_lt (hb.base.inum e hb.pos).2] at hr
  cases hadd : addEntry (s.ip dp).ents ⟨(s.itable e).inum, name⟩ (room 2) with
  | none =>
    rw [hadd] at hr
    obtain ⟨rfl, rfl, rfl⟩ := hr
    refine (hm.createFail hb).mono fun r s' t' hs' => ?_
    obtain ⟨rfl, hm', hproc⟩ := hs'
    exact ⟨hproc, hm'⟩
  | some ents =>
    rw [hadd] at hr
    obtain ⟨rfl, rfl, rfl⟩ := hr
    have hadds : (draft s e d).node (s.itable dp).inum = s.ip dp := draft_node_of_ne s d hb.inum_ne
    have hv : ((linked s e dp d ents).itable e).valid = true := by
      show ((draft s e d).itable e).valid = true
      rw [draft_self]
    refine .ite (fun _ => .ite (fun hdir => ?_) fun hdir => ?_) ?_
    · refine .bind (wpn_raiseNlink dp) fun _ s2 t2 hs2 => ?_
      obtain ⟨rfl, rfl⟩ := hs2
      generalize hm2 : withEnts (draft s e d) dp ents = m
      have hinum : (m.itable dp).inum = (s.itable dp).inum := by
        rw [← hm2]
        exact draft_inum s e d dp
      have hip : m.ip dp = { s.ip dp with ents := ents } := by
        unfold Vfs.ip
        rw [hinum, ← hm2]
        unfold withEnts withNode
        dsimp only
        rw [draft_inum, update_self, hdp]
        rfl
      have hlinked : withNode m (m.itable dp).inum { m.ip dp with nlink := (m.ip dp).nlink + 1 }
          = linked s e dp d ents := by
        rw [hip, hinum, ← hm2]
        unfold withEnts linked parentNode withNode
        dsimp only
        rw [draft_inum, update_idem, if_pos hdir]
      have hm1 := hm.linkNew hb hd hreach hfind hadd [(Note.adds (s.itable dp).inum, draft s e d),
          (Note.raises (s.itable dp).inum, m)] (noFree_cons nofun (noFree_cons nofun noFree_nil))
        ⟨_, List.mem_cons_self, hadds⟩ fun _ => ⟨m, by simp, ?_⟩
      · rw [hlinked, hinum]
        have hw := hm1.iputDir (E := E) hb.ne hv
        simp only [List.append_assoc] at hw
        exact hw
      · have := congrArg Node.nlink hip
        unfold Vfs.ip at this
        rw [hinum] at this
        exact this
    · have hlinked : withEnts (draft s e d) dp ents = linked s e dp d ents := by
        unfold withEnts linked parentNode
        rw [draft_inum, hdp, if_neg hdir, UInt16.add_zero]
      have hm1 := hm.linkNew hb hd hreach hfind hadd
        [(Note.adds (s.itable dp).inum, draft s e d)] (noFree_cons nofun noFree_nil)
        ⟨_, List.mem_singleton_self _, hadds⟩ (fun hdir' => (hdir hdir').elim)
      rw [hlinked]
      have hw := hm1.iputDir (E := E) hb.ne hv
      simp only [List.append_assoc] at hw
      exact hw
    · exact fun hno => (hno rfl).elim

-- ======== `create`

/-- `iget` does not look at the inodes. -/
theorem wpn_iget_node {Q : InodeId → Vfs → Notes Note Vfs → Prop}
    {dev : Nat} (n : Nat → Node) (hw : wpn E (iget dev i) Q s) :
    wpn E (iget dev i) (fun e s' t' => ∃ s1, Q e s1 t'
      ∧ s' = { s1 with node := n }) { s with node := n } := by
  unfold iget wpn at hw ⊢
  rw [get_bind_run] at hw ⊢
  dsimp only at hw ⊢
  revert hw
  cases (List.finRange ninode).find? fun e =>
      decide (0 < (s.itable e).ref) && (s.itable e).dev == dev && (s.itable e).inum == i with
  | some e => exact fun hw => ⟨_, hw, rfl⟩
  | none =>
    cases (List.finRange ninode).find? fun e => (s.itable e).ref == 0 with
    | some e => exact fun hw => ⟨_, hw, rfl⟩
    | none => exact id

variable (hE : ∀ x, x ≠ noType → E x)

include hE

/-- A new inode without links and entries, or no new inode. -/
theorem Mid.ialloc (hm : Mid g s0 t h {dp} s) (hv : (s.itable dp).valid = true)
    (hdir : (s.ip dp).type = .dir) : wpn E (ialloc type) (fun r s' t' => t' = [] ∧ match r with
      | none => s' = s
      | some e => ∃ s1, Mid g s0 t h (e ::ₘ {dp}) s1 ∧ Blank h e dp s1
          ∧ s1.ip dp = s.ip dp ∧ Walk h s s1
          ∧ (s1.itable dp).inum = (s.itable dp).inum
          ∧ s' = withNode s1 (s1.itable e).inum
            { type := type, major := 0, minor := 0, nlink := 0, ents := [] }) s := by
  have hpos := hm.base.ref_pos
  unfold Vfs.ialloc
  refine .get_bind ?_
  split
  · next i hfind =>
    have hfree : (s.node i).type = .free := by
      simpa using List.find?_some hfind
    have hrange := List.mem_range'_1.mp (List.mem_of_find?_eq_some hfind)
    have hsize := hm.base.size
    have hi : i ≠ 0 ∧ i < s.ninodes := ⟨by omega, by omega⟩
    have hget := wpn_iget hE hm.base (i := i) ⟨hi.1, by omega⟩
    refine .modify_bind (.bind (wpn_iget_node _ hget) ?_)
    intro e s' t' hs'
    obtain ⟨s1, ⟨rfl, hb1, hinum, hq, hst⟩, rfl⟩ := hs'
    have hw : Walk h s s1 := (Walk.refl h s).step hm.base hq hst
    have hdp := (hst dp hpos).ip hq
    refine .pure ⟨rfl, s1, hm.walk hb1 hw, ⟨hb1, ?_, ?_, ?_, ?_⟩, hdp, hw, (hst dp hpos).1, ?_⟩
    · unfold Vfs.ip
      rw [hinum, hq.node]
      exact hfree
    · rw [hinum, hq.ninodes]
      exact hi
    · exact (hst dp hpos).2 hv
    · rw [hdp]
      exact hdir
    · unfold withNode
      rw [hinum, hq.node]
  · exact .pure ⟨rfl, rfl⟩

/-- `ilock` of the new inode. -/
theorem wpn_ilock_new (hb : Blank h e dp s) (htype : d.type ≠ .free) :
    wpn E (ilock e) (fun _ s' t' => t' = [] ∧ s' = draft s e d)
      (withNode s (s.itable e).inum d) := by
  unfold ilock
  refine .get_bind (.ite (fun _ => .fault (hE _ (by decide))) fun _ => ?_)
  refine .ite (fun hv => ?_) fun _ => ?_
  · have hinv : ((withNode s (s.itable e).inum d).itable e).valid = false := hb.invalid
    rw [hinv] at hv
    cases hv
  · refine .modify_bind (.ite (fun hfree => ?_) fun _ => .pure ⟨rfl, rfl⟩)
    refine (htype ?_).elim
    have hd : (withNode s (s.itable e).inum d).ip e = d := update_self ..
    rw [← hd]
    exact hfree

/-- An inode is allocated, and given back if it cannot be linked. -/
theorem Mid.createNew (hm : Mid g s0 t h {dp} s) (htype : type ≠ .free)
    (hv : (s.itable dp).valid = true) (hdir : (s.ip dp).type = .dir)
    (hreach : Reachable s (s.itable dp).inum) (hfind : findName (s.ip dp).ents name = none) :
    wpn E (createNew dp name type major minor room) (fun r s' t' =>
      s'.proc = s.proc ∧ CreateEnd g s0 (t ++ t') h r s') s := by
  unfold Vfs.createNew
  refine .quiet (hm.ialloc hE hv hdir) fun r s' hr => ?_
  split
  · obtain rfl : s' = s := hr
    refine .quiet (Mid.iputWalk (W := 0) hm) fun _ s1 hs1 => .pure ?_
    rw [List.append_nil]
    exact ⟨hs1.2.1.quiet.proc, hs1.1⟩
  next e =>
  obtain ⟨s1, hm1, hb, hdp, hw1, hinum1, rfl⟩ := hr
  have hreach1 := hw1.reachable_inum hm.cwds hinum1 hreach
  rw [← hw1.quiet.proc]
  refine .quiet (wpn_ilock_new hE hb htype) fun _ s2 hs2 => ?_
  subst hs2
  refine .bind (M := fun _ s' t' => t' = [] ∧ s' = draft s1 e (newNode type major minor))
    (.get_bind (.modify ⟨rfl, ?_⟩)) ?_
  · rw [draft_inum, draft_node]
    exact draft_setNode ..
  intro _ s2 t2 hs2
  obtain ⟨rfl, rfl⟩ := hs2
  rw [← hdp] at hfind
  refine .ite (fun hd => ?_) fun hd => ?_
  · refine .bind (wpn_createDots hb hd rfl) fun r s2 t2 hr => ?_
    obtain ⟨hno, ents, rfl, hents⟩ := hr
    have hm2 := hm1.notes hno
    refine .ite (fun hok => ?_) fun _ => ?_
    · have hfresh : Fresh s1 e dp { newNode type major minor with ents := ents } :=
        ⟨htype, rfl, (hents hok).trans (if_pos hd).symm⟩
      refine (hm2.createLink hb hfresh hreach1 hfind).mono fun r s' t' hs' => ?_
      rw [List.append_assoc] at hs'
      exact hs'
    · refine (hm2.createFail hb).mono fun r s' t' hs' => ?_
      obtain ⟨rfl, hm', hproc'⟩ := hs'
      rw [List.append_assoc] at hm'
      exact ⟨hproc', hm'⟩
  · have hfresh : Fresh s1 e dp (newNode type major minor) := ⟨htype, rfl, (if_neg hd).symm⟩
    exact hm1.createLink hb hfresh hreach1 hfind

omit hE in
/-- What `dirlookup` finds in a directory of the lookup. -/
theorem Mid.found {off : Nat} (hm : Mid g s0 t h {dp} s) (hl : Looked E h s s)
    (hr : Reachable s (s.itable dp).inum) (hdir : (s.ip dp).type = .dir)
    (hend : LookupEnd h {dp} s dp name (some (e, off)) s') :
    Mid g s0 t h (e ::ₘ {dp}) s' ∧ Looked E h s s' ∧ Reachable s' (s'.itable e).inum := by
  obtain ⟨hb', hq, hst, de, hde, hne, -, hinum⟩ := hend
  have hw : Walk h s s' := (Walk.refl h s).step hm.base hq hst
  refine ⟨hm.walk hb' hw, ⟨hw, hl.safe.walk hw hm.cwds⟩, ?_⟩
  rw [hw.reachable hm.cwds, hinum]
  exact .step hr ⟨hdir, de, List.mem_of_getElem? hde, rfl, hne⟩

/-- `create` returns the inode there is, or a new one. -/
theorem Mid.create (hm : Mid g s0 t h 0 s) (hsafe : Safe E s) (htype : type ≠ .free) :
    wpn E (create p path type major minor room) (fun r s' t' =>
      s'.proc = s.proc ∧ CreateEnd g s0 (t ++ t') h r s') s := by
  unfold Vfs.create nameiparent
  refine .quiet (hm.namex hE hsafe) fun r s1 hr => ?_
  obtain ⟨hl1, hr⟩ := hr
  split
  · refine .pure ⟨hl1.walk.quiet.proc, ?_⟩
    rw [List.append_nil]
    exact hr
  next dp name =>
  obtain ⟨hm1, hr1, hpar⟩ := hr
  obtain ⟨hv1, hdir1⟩ := hpar rfl
  refine .quiet (hm1.ilock hE hm1.base.ref_pos hl1.safe hr1) fun _ s2 hs2 => ?_
  obtain ⟨hl2, hm2, hv2, hst2⟩ := hs2
  have hproc2 := hl2.walk.quiet.proc.trans hl1.walk.quiet.proc
  have hr2 := hl2.walk.reachable_inum hm1.cwds (hst2 dp).1 hr1
  rw [← hproc2]
  refine .quiet (wpn_dirlookup hE hm2.base hm2.base.ref_pos) fun r s3 hend => ?_
  obtain ⟨hdir2, hend⟩ := hend
  split
  · next ip off =>
    obtain ⟨hm3, hl3, hr3⟩ := hm2.found ⟨.refl h s2, hl2.safe⟩ hr2 hdir2 hend
    rw [show ip ::ₘ {dp} = dp ::ₘ {ip} from Multiset.cons_swap ip dp 0] at hm3
    refine .quiet hm3.iputWalk fun _ s4 hs4 => ?_
    obtain ⟨hm4, hw4, hst4⟩ := hs4
    have hr4 := hw4.reachable_inum hm3.cwds (hst4 ip).1 hr3
    have hsafe4 := hl3.safe.walk hw4 hm3.cwds
    refine .quiet (hm4.ilock hE hm4.base.ref_pos hsafe4 hr4) fun _ s5 hs5 => ?_
    obtain ⟨hl5, hm5, hv5, -⟩ := hs5
    have hproc5 : s5.proc = s2.proc := hl5.walk.quiet.proc.trans
      (hw4.quiet.proc.trans hl3.walk.quiet.proc)
    refine .get_bind (.ite (fun _ => .pure ⟨hproc5, ?_⟩) fun _ => ?_)
    · rw [List.append_nil]
      exact ⟨hm5, hv5⟩
    · refine .quiet (Mid.iputWalk (W := 0) hm5) fun _ s6 hs6 => .pure ?_
      rw [List.append_nil]
      exact ⟨hs6.2.1.quiet.proc.trans hproc5, hs6.1⟩
  · obtain ⟨rfl, hfind⟩ : s3 = s2 ∧ _ := hend
    exact hm2.createNew hE htype hv2 hdir2 hr2 hfind

theorem Mid.sysCreate (hm : Mid nobody s0 t h 0 s) (hf : h.files = 0)
    (hi : h.inodes = 0) (hsafe : Safe E s) (htype : type ≠ .free) :
    wpn E (sysCreate p path type major minor room)
      (fun _ s' t' => Done nobody s0 s' (t ++ t')) s := by
  unfold Vfs.sysCreate
  refine .bind (hm.create hE hsafe htype) fun r s1 t1 hr => ?_
  obtain ⟨-, hr⟩ := hr
  simp only [← List.append_assoc]
  split
  · exact Mid.stop hr hf hi
  · exact hr.1.putStop hf hi

/-- `open`, with or without `O_CREATE`. -/
theorem Mid.sysOpen {omode : Nat} (hm : Mid nobody s0 t h 0 s)
    (hlive : (s.proc p).life = .live) (hf : h.files = 0) (hi : h.inodes = 0) (hsafe : Safe E s) :
    wpn E (sysOpen p path omode room) (fun _ s' t' => Done nobody s0 s' (t ++ t')) s := by
  unfold Vfs.sysOpen
  refine .ite (fun _ => ?_) fun _ => ?_
  · refine .bind (hm.create hE hsafe (by decide)) fun r s1 t1 hr => ?_
    obtain ⟨hproc, hr⟩ := hr
    simp only [← List.append_assoc]
    split
    · exact Mid.stop hr hf hi
    · next ip =>
      have hm1 : Mid nobody s0 (t ++ t1) (h.inode ip) 0 s1 := Mid.settle (W := 0) hr.1 hr.2
      have hlive1 : (s1.proc p).life = .live := by rw [hproc]; exact hlive
      exact hm1.openInode hE hlive1 hf hi
  · refine .quiet (hm.namei hE hsafe) fun r s1 hr => ?_
    obtain ⟨hl1, hr⟩ := hr
    split
    · exact Mid.stop hr hf hi
    · next ip =>
      obtain ⟨hm1, hr1⟩ := hr
      refine .quiet (hm1.ilock hE hm1.base.ref_pos hl1.safe hr1) fun _ s2 hs2 => ?_
      obtain ⟨hl2, hm2, hv2, -⟩ := hs2
      have hlive2 : (s2.proc p).life = .live := by
        rw [hl2.walk.quiet.proc, hl1.walk.quiet.proc]
        exact hlive
      refine .get_bind (.ite (fun _ => hm2.putStop hf hi) fun _ => ?_)
      exact (Mid.settle (W := 0) hm2 hv2).openInode hE hlive2 hf hi

end

end Vfs

end GemOS
