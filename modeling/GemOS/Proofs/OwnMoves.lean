/-
The ownership invariant over processes, frames and swap entries, and what
it says about start-up.

Handing a table to a process, taking it away and dismantling a process
move no page (`Own.reassign`); frame and swap entries are not uses of
pages at all (`Own.entries`). With the drops and gains of the previous
module that covers every `Move`.
-/
import GemOS.Proofs.Own

namespace GemOS

open Function Prog

variable {g : Ghost} {s : Kernel}

-- ======== processes

@[simp] theorem Kernel.updProc_self (s : Kernel) (p : ProcId)
    (f : Proc → Proc) : (s.updProc p f).proc p = f (s.proc p) :=
  update_self ..

variable {p : ProcId} {f : Proc → Proc} {q q' : Proc} {root pa idx va : Nat}
  {g' : Ghost} {proc : ProcId → Proc} {k : Int}

theorem Kernel.updProc_of_ne (s : Kernel) {q : ProcId} (f : Proc → Proc)
    (h : q ≠ p) : (s.updProc p f).proc q = s.proc q :=
  update_of_ne h ..

@[grind =] theorem Kernel.updProc_proc (s : Kernel) (p q : ProcId) (f : Proc → Proc) :
    (s.updProc p f).proc q = if q = p then f (s.proc p) else s.proc q :=
  update_apply ..

/-- A field that an update leaves alone. -/
theorem Kernel.updProc_field {α : Type} (φ : Proc → α) (s : Kernel) (p : ProcId)
    (hf : φ (f (s.proc p)) = φ (s.proc p)) (q : ProcId) :
    φ ((s.updProc p f).proc q) = φ (s.proc q) := by
  grind

theorem Proc.bare_eq (h : q.bare = q'.bare) :
    q.state = q'.state ∧ q.sz = q'.sz ∧ q.pagetable = q'.pagetable
      ∧ q.trapframe = q'.trapframe ∧ q.residentPages = q'.residentPages :=
  ⟨show q.bare.state = q'.bare.state by rw [h], show q.bare.sz = q'.bare.sz by rw [h],
    show q.bare.pagetable = q'.bare.pagetable by rw [h],
    show q.bare.trapframe = q'.bare.trapframe by rw [h],
    show q.bare.residentPages = q'.bare.residentPages by rw [h]⟩

theorem Proc.Sound.congr (h : q.Sound) (hb : q'.bare = q.bare) : q'.Sound := by
  obtain ⟨hst, hsz, hpt, htf, hres⟩ := Proc.bare_eq hb
  obtain ⟨h1, h2, h3⟩ := h
  constructor <;> grind

/-- A process with a table is not a free slot. -/
theorem Proc.Sound.of_table (hpt : q.pagetable = some root)
    (hst : q.state ≠ .unused) : q.Sound := by
  refine ⟨fun hu => absurd hu hst, fun _ hn => ?_, fun _ _ hn => ?_⟩
  · exact absurd (hpt.symm.trans hn) nofun
  · exact absurd (hpt.symm.trans hn) nofun

theorem Proc.Sound.state_ne (h : q.Sound) (hpt : q.pagetable = some root) :
    q.state ≠ .unused := fun hu =>
  absurd (hpt.symm.trans (h.unused hu).1) nofun

section

variable (h : Own g s)

include h

/-- A change of the process table and of what is in hand, all pages
staying where they are. -/
theorem Own.reassign (hhand : g'.hand = g.hand) (hex : Exclusive (Holds g' { s with proc := proc }))
    (hram : ∀ u pa, Holds g' { s with proc := proc } u pa → RamPage pa ∧ s.kend ≤ pa)
    (hatt : ∀ p root, Attached g' { s with proc := proc } p root →
      (s.pagetables root).live = true ∧ Fixed { s with proc := proc } p root
        ∧ ∀ x, g'.spare ≠ some (root, x))
    (hapart : ∀ p q root, Attached g' { s with proc := proc } p root →
      Attached g' { s with proc := proc } q root → p = q)
    (hspare : ∀ root x, g'.spare = some (root, x) → (s.pagetables root).live = true
        ∧ ∀ p, x = some p → Fixed { s with proc := proc } p root)
    (hprocs : ∀ p, g'.dying ≠ some p → (proc p).Sound)
    (hsz : ∀ p, (proc p).sz ≤ trapframeVa) : Own g' { s with proc := proc } :=
  { h with
    exclusive := hex
    ram := hram
    nodup := by rw [hhand]; exact h.nodup
    attached := hatt
    apart := hapart
    spare := hspare
    procs := hprocs
    sz := hsz
    idle := h.idle.congr rfl rfl }

omit h in
/-- The uses of pages depend on the trapframes of processes only. -/
theorem holds_reassign (hhand : g'.hand = g.hand) (htf : ∀ p pa, (proc p).trapframe = some pa →
      (s.proc p).trapframe = some pa)
    {u : Use} (h : Holds g' { s with proc := proc } u pa) : Holds g s u pa := by
  cases u with
  | hand => grind [Holds]
  | trapframe p => exact htf p pa h
  | _ => exact h

/-- A page becomes the trapframe of a process without a table. -/
theorem Own.gainTrapframe (hfree : Unowned g s pa)
    (hspare : g.spare = none) (hpt : (s.proc p).pagetable = none)
    (hst : (s.proc p).state ≠ .unused) :
    Own g (s.updProc p fun q => { q with trapframe := some pa }) := by
  have hproc := fun q => s.updProc_proc p q fun q => { q with trapframe := some pa }
  have hsz := s.updProc_field (f := fun q => { q with trapframe := some pa }) Proc.sz p rfl
  have hgain : ∀ u a, Holds g (s.updProc p fun q =>
      { q with trapframe := some pa }) u a →
      (u = .trapframe p ∧ a = pa) ∨ Holds g s u a := by
    intro u a hu
    cases u with
    | trapframe q => grind [Holds]
    | _ => exact .inr hu
  have hne : ∀ q root, Attached g (s.updProc p fun q =>
      { q with trapframe := some pa }) q root → q ≠ p ∧ Attached g s q root := by
    grind [Attached]
  refine h.reassign rfl (h.exclusive.gain hfree.unused hgain)
    (h.ram_gain rfl hfree hgain) ?_ ?_ ?_ ?_ ?_
  · intro q root hq
    obtain ⟨hqp, hq'⟩ := hne q root hq
    obtain ⟨h1, h2, h3⟩ := h.attached q root hq'
    exact ⟨h1, h2.congr rfl (by grind) fun _ _ => rfl, h3⟩
  · exact fun q q' root hq hq' => h.apart q q' root (hne q root hq).2 (hne q' root hq').2
  · grind
  · intro q hq
    obtain ⟨h1, h2, h3⟩ := h.procs q hq
    constructor <;> grind [update_apply]
  · exact fun q => (hsz q).trans_le (h.sz q)

/-- A trapframe is dropped by a process that is being dismantled. -/
theorem Own.dropTrapframe (hdying : g.dying = some p) (htf : (s.proc p).trapframe = some pa)
    (hspare : ∀ root x, g.spare = some (root, x) → x = none) :
    Own g (s.updProc p fun q => { q with trapframe := none })
      ∧ Unowned g (s.updProc p fun q => { q with trapframe := none }) pa := by
  have hproc := fun q => s.updProc_proc p q fun q => { q with trapframe := none }
  have hsz := s.updProc_field (f := fun q => { q with trapframe := none }) Proc.sz p rfl
  have hsub : ∀ u a, Holds g (s.updProc p fun q =>
      { q with trapframe := none }) u a → Holds g s u a :=
    fun u a hu => holds_reassign rfl (by grind [update_apply]) hu
  have hne : ∀ q root, Attached g (s.updProc p fun q =>
      { q with trapframe := none }) q root → q ≠ p ∧ Attached g s q root := by
    grind [Attached]
  constructor
  · refine h.reassign rfl (h.exclusive.mono hsub) (h.ram_mono rfl hsub) ?_ ?_ ?_ ?_ ?_
    · intro q root hq
      obtain ⟨hqp, hq'⟩ := hne q root hq
      obtain ⟨h1, h2, h3⟩ := h.attached q root hq'
      exact ⟨h1, h2.congr rfl (by grind) fun _ _ => rfl, h3⟩
    · exact fun q q' root hq hq' => h.apart q q' root (hne q root hq).2 (hne q' root hq').2
    · grind [h.spare]
    · grind [update_apply, h.procs]
    · exact fun q => (hsz q).trans_le (h.sz q)
  · refine h.unowned (u := .trapframe p) htf rfl hsub ?_
    grind [Holds]

/-- A spare table becomes the table of a process; `old` is what becomes
of the table it had. -/
theorem Own.handOver {old : Option Nat} (sz : Nat)
    (hspare : g.spare = some (root, some p)) (hold : (s.proc p).pagetable = old)
    (hdying : g.dying ≠ some p) (hst : (s.proc p).state ≠ .unused) (hszle : sz ≤ trapframeVa) :
    Own { g with spare := old.map fun r => (r, none) }
      (s.updProc p fun q => { q with pagetable := some root, sz := sz }) := by
  generalize hg : ({ g with spare := old.map fun r => (r, none) } : Ghost) = g'
  have hproc := fun q => s.updProc_proc p q fun q => { q with pagetable := some root, sz := sz }
  have htf := s.updProc_field (f := fun q => { q with
    pagetable := some root, sz := sz }) Proc.trapframe p rfl
  generalize hs : (s.updProc p fun q => { q with pagetable := some root, sz := sz }) = s'
    at hproc htf
  have hsub : ∀ u a, Holds g' s' u a → Holds g s u a := by
    subst hs hg
    exact fun u a hu => holds_reassign rfl (fun q b hq => (htf q).symm.trans hq) hu
  have hcases : ∀ q r, Attached g' s' q r → (q = p ∧ r = root) ∨ (q ≠ p ∧ Attached g s q r) := by
    grind [Attached]
  have hgone : ∀ r x, g'.spare = some (r, x) → x = none ∧ Attached g s p r := by
    grind [Attached, Option.map_eq_some_iff]
  obtain ⟨hlive, hfix⟩ := h.spare root _ hspare
  subst hs
  refine h.reassign (by rw [← hg]) (h.exclusive.mono hsub) (h.ram_mono rfl hsub) ?_ ?_ ?_ ?_ ?_
  · intro q r hq
    rcases hcases q r hq with ⟨rfl, rfl⟩ | ⟨hqp, hq'⟩
    · refine ⟨hlive, (hfix q rfl).congr rfl (htf q) fun _ _ => rfl, ?_⟩
      exact fun x hx => (h.attached q r (hgone r x hx).2).2.2 _ hspare
    · obtain ⟨h1, h2, -⟩ := h.attached q r hq'
      refine ⟨h1, h2.congr rfl (htf q) fun _ _ => rfl, fun x hx => ?_⟩
      exact hqp (h.apart q p r hq' (hgone r x hx).2)
  · intro q q' r hq hq'
    have h1 := hcases q r hq
    have h2 := hcases q' r hq'
    grind [h.ne_spare hspare, h.apart]
  · intro r x hx
    obtain ⟨rfl, hp⟩ := hgone r x hx
    exact ⟨(h.attached p r hp).1, nofun⟩
  · intro q hq
    by_cases hqp : q = p
    · rw [hqp, update_self]
      exact .of_table rfl hst
    · grind [update_apply, h.procs]
  · intro q
    by_cases hqp : q = p
    · rw [hqp, update_self]
      exact hszle
    · rw [update_of_ne hqp]
      exact h.sz q

/-- A process is about to be dismantled; its table becomes spare. -/
theorem Own.reap (hdying : g.dying = none) : Own { g with
      dying := some p
      spare := (s.proc p).pagetable.map fun root => (root, none) } s := by
  have hatt : ∀ q r, (s.proc q).pagetable = some r → Attached g s q r :=
    fun q r hr => ⟨hdying ▸ nofun, hr⟩
  show Own _ { s with proc := s.proc }
  refine h.reassign rfl (h.exclusive.mono fun u a hu => ?_)
    (h.ram_mono rfl fun u a hu => ?_) ?_ ?_ ?_ ?_ h.sz
  · exact holds_reassign rfl (fun _ _ ht => ht) hu
  · exact holds_reassign rfl (fun _ _ ht => ht) hu
  · rintro q r ⟨hqp, hr⟩
    obtain ⟨h1, h2, -⟩ := h.attached q r (hatt q r hr)
    refine ⟨h1, h2, ?_⟩
    grind [h.apart, Option.map_eq_some_iff]
  · exact fun q q' r hq hq' => h.apart q q' r (hatt q r hq.2) (hatt q' r hq'.2)
  · intro r x hx
    obtain ⟨r', hr', heq⟩ := Option.map_eq_some_iff.mp hx
    cases heq
    exact ⟨(h.attached p r (hatt p r hr')).1, nofun⟩
  · exact fun q _ => h.procs q (hdying ▸ nofun)

/-- A dismantled process leaves its slot. -/
theorem Own.clear (hdying : g.dying = some p)
    (hspare : g.spare = none) (htf : (s.proc p).trapframe = none) :
    Own { g with dying := none } (s.updProc p Proc.cleared) := by
  have htf' : ∀ q, ((s.updProc p Proc.cleared).proc q).trapframe
      = (s.proc q).trapframe := s.updProc_field Proc.trapframe p rfl
  have hsub : ∀ u a, Holds { g with dying := none }
      (s.updProc p Proc.cleared) u a → Holds g s u a := fun u a hu =>
    holds_reassign rfl (fun q b hq => (htf' q).symm.trans hq) hu
  have hne : ∀ q r, Attached { g with dying := none }
      (s.updProc p Proc.cleared) q r → q ≠ p ∧ Attached g s q r := by
    grind [Attached, Proc.cleared]
  refine h.reassign rfl (h.exclusive.mono hsub) (h.ram_mono rfl hsub) ?_ ?_ ?_ ?_ ?_
  · intro q r hq
    obtain ⟨h1, h2, h3⟩ := h.attached q r (hne q r hq).2
    exact ⟨h1, h2.congr rfl (htf' q) fun _ _ => rfl, h3⟩
  · exact fun q q' r hq hq' => h.apart q q' r (hne q r hq).2 (hne q' r hq').2
  · grind
  · intro q _
    by_cases hqp : q = p
    · subst hqp
      rw [update_self]
      exact ⟨fun _ => ⟨rfl, htf, rfl⟩, nofun, fun hu => absurd rfl hu⟩
    · grind [update_of_ne, h.procs]
  · intro q
    by_cases hqp : q = p
    · rw [hqp, update_self]
      exact Nat.zero_le _
    · rw [update_of_ne hqp]
      exact h.sz q

theorem Own.setSz {sz : Nat} (hp : Attached g s p root) (hle : sz ≤ trapframeVa) :
    Own g (s.updProc p fun q => { q with sz := sz }) := by
  have htf := s.updProc_field (f := fun q => { q with sz := sz }) Proc.trapframe p rfl
  have hpt := s.updProc_field (f := fun q => { q with sz := sz }) Proc.pagetable p rfl
  generalize hs : (s.updProc p fun q => { q with sz := sz }) = s' at htf hpt
  have hsub : ∀ u a, Holds g s' u a → Holds g s u a := by
    subst hs
    exact fun u a hu => holds_reassign rfl (fun q b hq => (htf q).symm.trans hq) hu
  have hatt : ∀ q r, Attached g s' q r → Attached g s q r :=
    fun q r hq => ⟨hq.1, (hpt q).symm.trans hq.2⟩
  subst hs
  refine h.reassign rfl (h.exclusive.mono hsub) (h.ram_mono rfl hsub) ?_
    (fun q q' r hq hq' => h.apart q q' r (hatt q r hq) (hatt q' r hq')) ?_ ?_ ?_
  · intro q r hq
    obtain ⟨h1, h2, h3⟩ := h.attached q r (hatt q r hq)
    exact ⟨h1, h2.congr rfl (htf q) fun _ _ => rfl, h3⟩
  · intro r x hx
    obtain ⟨h1, h2⟩ := h.spare r x hx
    exact ⟨h1, fun q hq => (h2 q hq).congr rfl (htf q) fun _ _ => rfl⟩
  · intro q hq
    by_cases hqp : q = p
    · rw [hqp, update_self]
      exact .of_table hp.2 ((h.procs p hp.1).state_ne hp.2)
    · rw [update_of_ne hqp]
      exact h.procs q hq
  · intro q
    by_cases hqp : q = p
    · rw [hqp, update_self]
      exact hle
    · rw [update_of_ne hqp]
      exact h.sz q

-- ======== frames and swap entries

/-- A change of the frame and swap entries. -/
theorem Own.entries (frames : Nat → FrameEntry) (swaps : Nat → SwapDiskEntry)
    (hframes : ∀ i, (frames i).inUse = true →
      (frames i).vaddr < trapframeVa ∧ (frames i).vaddr % pgsize = 0
        ∧ s.frameIndexToPa i < phystop) :
    Own g { s with frameTable := frames, swapDiskTable := swaps } :=
  { h with
    attached := fun p root hp =>
      let ⟨h1, h2, h3⟩ := h.attached p root hp
      ⟨h1, h2.congr rfl rfl fun _ _ => rfl, h3⟩
    spare := fun root x hx =>
      let ⟨h1, h2⟩ := h.spare root x hx
      ⟨h1, fun p hp => (h2 p hp).congr rfl rfl fun _ _ => rfl⟩
    frames := hframes
    idle := h.idle.congr rfl rfl }

theorem Own.setFrame {e : FrameEntry}
    (he : e.inUse = true → e.vaddr < trapframeVa ∧ e.vaddr % pgsize = 0
      ∧ s.frameIndexToPa idx < phystop) : Own g (s.setFrame idx e) := by
  refine h.entries _ s.swapDiskTable fun i hi => ?_
  by_cases hidx : i = idx
  · rw [hidx, update_self] at hi ⊢
    exact he hi
  · rw [update_of_ne hidx] at hi ⊢
    exact h.frames i hi

omit h in
/-- An entry is that of the frame the address lies in. -/
theorem getFrameEntry_bounds (h : s.getFrameEntry pa = some idx) :
    s.frameIndexToPa idx ≤ pa ∧ pa < phystop := by
  unfold Kernel.getFrameEntry at h
  split at h
  · cases h
  · grind [Nat.div_mul_le_self, Kernel.frameIndexToPa]

theorem Own.register (hva : va < trapframeVa)
    (halign : va % pgsize = 0) : Own g (s.registered p va pa) := by
  unfold Kernel.registered
  cases hidx : s.getFrameEntry pa with
  | none => exact h
  | some idx =>
    obtain ⟨hle, hhi⟩ := getFrameEntry_bounds hidx
    exact h.setFrame fun _ => ⟨hva, halign, hle.trans_lt hhi⟩

theorem Own.setSwap {slot : Nat} {e : SwapDiskEntry} : Own g (s.setSwap slot e) :=
  h.entries s.frameTable _ h.frames

/-- Which PTE is in the middle of a swap-in is not about pages. -/
theorem Own.setPending {x : Option (ProcId × Nat)} : Own { g with pending := x } s :=
  { h with
    exclusive := h.exclusive.mono fun u a hu => by cases u <;> exact hu
    ram := fun u a hu => h.ram u a (by cases u <;> exact hu) }

end

-- ======== counting

theorem Steady.refl (s : Kernel) : Steady s s :=
  { kend := rfl, trampoline := rfl, pages := .refl _, tables := rfl
    sz := fun _ => rfl, pagetable := fun _ => rfl, trapframe := fun _ => rfl
    procs := fun _ h => h, frames := fun _ => rfl, swaps := rfl
    idle := fun h => h }

/-- What counting pages leaves of a process. -/
theorem Counts.keeps (hf : Counts f k) (q : Proc) : (f q).state = q.state ∧ (f q).sz = q.sz
      ∧ (f q).pagetable = q.pagetable ∧ (f q).trapframe = q.trapframe
      ∧ (f q).residentPages = q.residentPages + k := by
  have h : (f q).bare = { q with residentPages := q.residentPages + k }.bare := hf q
  exact Proc.bare_eq h

/-- One leaf was stored to, and every process has the table it had. -/
structure LeafStored (g : Ghost) (s : Kernel) (g' : Ghost) (s' : Kernel) (root va w : Nat) :
    Prop where
  attached : ∀ q r, Attached g' s' q r ↔ Attached g s q r
  tables : s'.pagetables = (s.setLeaf root va w).pagetables

variable {s' : Kernel} {w : Nat}

theorem LeafStored.self (h : LeafStored g s g' s' root va w)
    (hmid : ((s.pagetables root).mid (va >>> 21)).isSome) :
    (s'.pagetables root).leaf (va >>> 12) = w := by
  rw [h.tables]
  exact Kernel.setLeaf_leaf_self hmid

theorem LeafStored.other {r v : Nat} (h : LeafStored g s g' s' root va w)
    (hne : r ≠ root ∨ v ≠ va >>> 12) : (s'.pagetables r).leaf v = (s.pagetables r).leaf v := by
  rw [h.tables]
  exact Kernel.setLeaf_leaf_of_ne hne

theorem LeafStored.counted {s1 : Kernel} (hf : Counts f k) (hdying : g'.dying = g.dying)
    (hproc : s1.proc = s.proc) (htab : s1.pagetables = (s.setLeaf root va w).pagetables) :
    LeafStored g s g' (s1.updProc p f) root va w := by
  refine ⟨fun q r => ?_, htab⟩
  unfold Attached
  rw [hdying, s1.updProc_field Proc.pagetable p (hf.keeps _).2.2.1 q, hproc]

/-- The store of a page brought in. -/
theorem LeafStored.brought {perm : Nat} (hf : Counts f k) (hdying : g'.dying = g.dying) :
    LeafStored g s g' (s.brought p root va pa perm f) root va (pa2pte pa ||| perm ||| pteV) := by
  obtain ⟨frames, hs⟩ := Kernel.registered_shape
    (s.setLeaf root va (pa2pte pa ||| perm ||| pteV)) p va pa
  unfold Kernel.brought
  rw [hs]
  exact .counted hf hdying rfl rfl

/-- Counting the pages of a process that has a table. -/
theorem Own.count (h : Own g s) (hp : Attached g s p root) (hf : Counts f k) :
    Own g (s.updProc p f) := by
  obtain ⟨hst, hsz, hpt, htf, -⟩ := hf.keeps (s.proc p)
  refine h.steady { Steady.refl s with
    sz := s.updProc_field Proc.sz p hsz
    pagetable := s.updProc_field Proc.pagetable p hpt
    trapframe := s.updProc_field Proc.trapframe p htf
    procs := ?_
    idle := fun hi => hi.congr rfl rfl }
  intro q hq
  by_cases hqp : q = p
  · subst hqp
    rw [s.updProc_self]
    exact .of_table (hpt.trans hp.2) (hst ▸ hq.state_ne hp.2)
  · rwa [s.updProc_of_ne _ hqp]

/-- Registering a frame does not touch the process table. -/
theorem Attached.registered {q : ProcId} (h : Attached g s q root) :
    Attached g (s.registered p va pa) q root := by
  obtain ⟨table, hs⟩ := s.registered_shape p va pa
  rw [hs]
  exact h

-- ======== all moves

theorem Kernel.push_setLeaf (s : Kernel) (pa root va w : Nat) :
    (s.push pa).setLeaf root va w = (s.setLeaf root va w).push pa := rfl

theorem Own.settle {x y : Option ProcId} (h : Own g s) (hspare : g.spare = some (root, x))
    (hfixed : ∀ p, y = some p → Fixed s p root) : Own { g with spare := some (root, y) } s :=
  { h with
    exclusive := h.exclusive.mono fun u a hu => by cases u <;> exact hu
    ram := fun u a hu => h.ram u a (by cases u <;> exact hu)
    attached := by
      intro p r hp
      obtain ⟨h1, h2, h3⟩ := h.attached p r hp
      refine ⟨h1, h2, fun z hz => ?_⟩
      cases hz
      exact h3 x hspare
    spare := by
      intro r z hz
      cases hz
      exact ⟨(h.spare root x hspare).1, hfixed⟩ }

/-- Every move keeps the ownership invariant. -/
theorem Own.move {s' : Kernel} {t : Notes Mark Kernel} (h : Own g s)
    (m : Move g s t g' s') : Own g' s' := by
  cases m with
  | aside ha => exact h.steady ha.toSteady
  | take hfree =>
    obtain ⟨h1, h2⟩ := h.dropFree hfree
    exact h1.gainHand h2
  | give hhand =>
    obtain ⟨h1, h2⟩ := h.dropHand hhand
    exact h1.gainFree h2
  | linkDir hhand hlive _ =>
    obtain ⟨h1, h2⟩ := h.dropHand hhand
    exact h1.gainDir h2 hlive
  | linkMid hhand hlive _ =>
    obtain ⟨h1, h2⟩ := h.dropHand hhand
    exact h1.gainMid h2 hlive
  | map hhand _ _ _ _ hva _ _ hperm =>
    obtain ⟨h1, h2⟩ := h.dropHand hhand
    exact h1.gainLeaf h2 hva hperm
  | @bring p root va pa perm rest f hhand _ hp _ _ hva halign _ hperm hf =>
    obtain ⟨h1, h2⟩ := h.dropHand hhand
    have h3 : Own { g with hand := rest }
        ((s.setLeaf root va (pa2pte pa ||| perm ||| pteV)).registered p va pa) :=
      (h1.gainLeaf h2 hva hperm).register hva halign
    have hp' : Attached { g with hand := rest }
        (s.setLeaf root va (pa2pte pa ||| perm ||| pteV)) p root := hp
    exact (h3.count hp'.registered hf).setPending
  | @unmap root va _ hmid hva _ hV =>
    obtain ⟨h1, h2⟩ := h.dropLeaf root hva isV_zero
    rw [Kernel.push_setLeaf]
    exact h1.gainFree (h2 hmid hV)
  | touch hva _ => exact h.rewriteLeaf hva (isV_or_pteA _) (pte2pa_or _ (by decide))
  | guard _ hva => exact h.rewriteLeaf hva (isV_clearFlag_pteU _) (pte2pa_clearFlag _ (by decide))
  | create hhand _ =>
    obtain ⟨h1, h2⟩ := h.dropHand hhand
    exact h1.gainRoot h2
  | mapFixed hspare hva _ =>
    refine h.setFixed hspare ?_ ?_ <;>
      simp only [trapframeVa, trampolineVa, maxva, pgsize] at * <;> omega
  | settle hspare hfixed _ => grind [h.settle]
  | unsettle hspare => exact h.settle hspare nofun
  | unmapFixed hspare hlo hhi => exact h.setFixed hspare hlo hhi
  | destroy hspare => exact h.destroy hspare
  | setTrapframe hhand hspare hpt hst =>
    obtain ⟨h1, h2⟩ := h.dropHand hhand
    exact h1.gainTrapframe h2 hspare hpt hst
  | @attach p root hspare hdying hpt hst =>
    exact h.handOver (s.proc p).sz hspare hpt (by rw [hdying]; exact nofun) hst (h.sz p)
  | @commit p root old sz _ hspare hold hsz =>
    refine h.handOver sz hspare hold.2 hold.1 (fun hu => ?_) hsz
    exact absurd (hold.2.symm.trans ((h.procs p hold.1).unused hu).1) nofun
  | reap _ _ hdying => exact h.reap hdying
  | freeTrapframe hdying htf hspare =>
    obtain ⟨h1, h2⟩ := h.dropTrapframe hdying htf hspare
    exact h1.gainFree h2
  | clear hdying hspare htf => exact h.clear hdying hspare htf
  | setSz hp hsz => exact h.setSz hp hsz
  | shrink _ => exact h
  | @swapOut p root idx slot block f _ huse _ hp hmid hV hpa _ _ hf =>
    obtain ⟨hva, halign, hhi⟩ := h.frames idx huse
    have hset : Own g ((s.recorded idx slot block).setFrame idx
        { s.frameTable idx with swapped := true, swapIndex := slot }) :=
      h.setSwap.setFrame fun _ => ⟨hva, halign, hhi⟩
    obtain ⟨h1, h2⟩ := hset.dropLeaf root hva
      (isV_swappedPte (s.pte root (s.frameTable idx).vaddr) slot)
    have h3 := h2 hmid hV
    rw [show ((s.recorded idx slot block).setFrame idx
      { s.frameTable idx with swapped := true, swapIndex := slot }).pte root
      (s.frameTable idx).vaddr = s.pte root (s.frameTable idx).vaddr from rfl, hpa] at h3
    exact (h1.gainHand h3).count hp hf
  | unswap _ _ _ _ => exact h.setSwap.setPending
  | abandon _ _ _ => exact h.setPending

/-- The invariant holds when the first process is created. -/
theorem Booted.own (h : Booted s) : Own .empty s := by
  have hex : ∀ u pa, Holds .empty s u pa →
      (u = .free ∧ pa ∈ s.freelist) ∨ (u = .held ∧ pa ∈ s.held) := by
    intro u pa hu
    cases u with
    | free | held | hand | trapframe => grind [Holds, Ghost.empty, h.proc, Proc.initial]
    | root | dir | mid | leaf =>
        grind [Holds, h.pagetables, PageTable.dead, PageTable.empty, isV_zero]
  have hapart := List.disjoint_of_nodup_append h.nodup
  have hnone : ∀ p root, ¬ Attached .empty s p root := by
    grind [Attached, h.proc, Proc.initial]
  exact
    { image := ⟨h.kend, h.trampoline⟩
      exclusive := by grind [Exclusive, List.Disjoint]
      ram := by grind [h.ram]
      nodup := by
        rw [show Ghost.empty.hand = [] from rfl, List.append_nil]
        exact h.nodup
      dead := fun r _ => h.pagetables r
      top := fun r v _ => by rw [h.pagetables]; rfl
      attached := fun p root hp => absurd hp (hnone p root)
      apart := fun p q root hp => absurd hp (hnone p root)
      spare := fun _ _ hr => by cases hr
      procs := fun p _ => by
        rw [h.proc]
        exact ⟨fun _ => ⟨rfl, rfl, rfl⟩, (fun hu => by cases hu), fun hu => absurd rfl hu⟩
      sz := fun p => by rw [h.proc]; exact Nat.zero_le _
      frames := fun i hi => by rw [h.frames] at hi; cases hi
      idle := idle_iff.mpr ⟨h.head, h.tail⟩ }

end GemOS
