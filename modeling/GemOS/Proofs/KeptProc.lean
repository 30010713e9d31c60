/-
Processes, `kexec` and the operations of the system on the page machine.

The life of a table is in `Ghost.spare`: created empty, given its fixed
mappings and then ready for its process (`procPagetable`), attached or
committed, and in the end taken away and freed (`procFreepagetable`).
Every operation begins and ends with nothing in hand.
-/
import GemOS.Proofs.KeptSwap

namespace GemOS

open Function Prog

variable {G : Mark → Kernel → Prop} {J : Ghost → Notes Mark Kernel → Kernel → Prop} {g : Ghost}

-- ======== tables

/-- A new table is spare. -/
theorem Kept.uvmcreate (hK : Kept G J) (hspare : g.spare = none) :
    Triple G (J g) uvmcreate fun r n s =>
      match r with
      | none => J g n s
      | some root => J { g with spare := some (root, none) } n s
          ∧ (s.pagetables root).leaf = fun _ => 0 := by
  refine .bind (hK.kalloc g) fun r => ?_
  cases r with
  | none => exact .pure fun n s h => h
  | some root =>
    refine .bind (.modify fun n s hJ => ?_) fun _ => .pure fun n s h => h
    refine ⟨hK.quiet hJ (.create rfl hspare), ?_⟩
    show (update s.pagetables root PageTable.empty root).leaf = _
    rw [update_self]
    rfl

variable {perm root tf : Nat} {p me : ProcId} {s : Kernel} {f : Proc → Proc} {k : Int}

/-- A fixed mapping of a table that is being built. -/
theorem Kept.mappagesFixed (hK : Kept G J) {va pa : Nat} (hspare : g.spare = some (root, none))
    (hva : va = trampolineVa ∨ va = trapframeVa) (B : Kernel) (l : Nat → Nat) :
    Triple G (fun n s => J g n s ∧ s.beside = B ∧ (s.pagetables root).leaf = l)
      (GemOS.mappages root va pgsize pa perm)
      fun r n s => J g n s ∧ ((r = 0 ∧ s.beside = B ∧ (s.pagetables root).leaf
            = update l (va >>> 12) (pa2pte pa ||| perm ||| pteV))
        ∨ r = -1) := by
  have hmove : MapsBy (fun _ => True) g g root va pa perm :=
    fun s _ _ _ _ hV => .mapFixed hspare hva hV
  refine ((hK.mappagesBy hmove).and_run (R := fun s =>
    s.beside = B ∧ (s.pagetables root).leaf = l) (S := fun r s => r = 0 →
    s.beside = B ∧ (s.pagetables root).leaf = update l (va >>> 12) (pa2pte pa ||| perm ||| pteV))
    ?_).conseq (fun n s h => ⟨⟨h.1, trivial⟩, h.2⟩) ?_
  · rintro s r s' t ⟨hB, hl⟩ hrun rfl
    exact ⟨(beside_mappages _ _ _ _ _ hrun).trans hB, hl ▸ mappages_leaf hrun⟩
  · grind

theorem beside_uvmcreate : Keeps Kernel.beside GemOS.uvmcreate := by
  refine .bind beside_kalloc fun r => ?_
  cases r with
  | none => exact .pure _
  | some root => exact .bind (.modify fun _ => rfl) fun _ => .pure _

/-- A table with the two fixed mappings written and nothing else. -/
theorem Own.fixed {s0 : Kernel} {perm' : Nat} (h : Own g s)
    (htf : (s0.proc p).trapframe = some tf) (hbeside : s.beside = s0.beside)
    (hperm : perm < 1024) (hperm' : perm' < 1024) (hleaf : (s.pagetables root).leaf
      = update (update (fun _ => 0) (trampolineVa >>> 12)
          (pa2pte s0.trampoline ||| perm ||| pteV)) (trapframeVa >>> 12)
          (pa2pte tf ||| perm' ||| pteV)) :
    Fixed s p root ∧ ∀ v < userPages, (s.pagetables root).leaf v = 0 := by
  have hvt : trampolineVa >>> 12 = userPages + 1 := by decide
  have hvf : trapframeVa >>> 12 = userPages := by decide
  have hproc : s.proc = s0.proc := by
    show s.beside.proc = s0.beside.proc
    rw [hbeside]
  have htramp : s.trampoline = s0.trampoline := by
    show s.beside.trampoline = s0.beside.trampoline
    rw [hbeside]
  rw [hvt, hvf, ← htramp] at hleaf
  rw [← hproc] at htf
  obtain ⟨hram, hend⟩ := h.ram (.trapframe p) tf htf
  obtain ⟨-, halign, -, himage⟩ := h.image
  have hstop : s.trampoline < phystop := by
    have := hram.2.2
    simp only [pgsize] at himage
    omega
  refine ⟨⟨?_, ?_⟩, fun v hv => ?_⟩
  · rw [hleaf, update_of_ne (by omega), update_self]
    exact ⟨isV_or_pteV _, pte2pa_mapped halign hstop hperm⟩
  · rw [hleaf, update_self, pte2pa_mapped hram.1 hram.2.2 hperm']
    exact ⟨isV_or_pteV _, htf⟩
  · rw [hleaf, update_of_ne (by omega), update_of_ne (by omega)]

/-- The table of a new process or a new image. -/
theorem Kept.procPagetable (hK : Kept G J) (hspare : g.spare = none) :
    Triple G (fun n s => J g n s ∧ (s.proc p).trapframe = some tf) (procPagetable p)
      fun r n s => J { g with spare := r.map fun root => (root, some p) } n s := by
  have hg : { g with spare := none } = g := by
    rw [← hspare]
  refine .bind ((hK.uvmcreate hspare).keep (keeps_proc beside_uvmcreate)
    fun proc => (proc p).trapframe = some tf) fun r => ?_
  cases r with
  | none =>
    refine .pure fun n s h => ?_
    rw [Option.map_none, hg]
    exact h.1
  | some root =>
    refine .get_bind fun s0 => .of_pre (c := (s0.proc p).trapframe = some tf) ?_ fun htf => ?_
    · rintro n s ⟨⟨-, htf⟩, rfl⟩
      exact htf
    refine .bind ((hK.mappagesFixed (g := { g with
      spare := some (root, none) }) rfl (.inl rfl) s0.beside fun _ => 0).pre
      ?_) fun r => ?_
    · rintro n s ⟨⟨⟨hJ, hleaf⟩, -⟩, rfl⟩
      exact ⟨hJ, rfl, hleaf⟩
    refine .ite (fun _ => ?_) fun hr => ?_
    · exact .bind ((hK.uvmfree rfl (Nat.zero_le _)).pre fun n s h => h.1)
        fun _ => .pure fun n s h => h
    refine .bind ((hK.mappagesFixed (g := { g with
      spare := some (root, none) }) rfl (.inr rfl) s0.beside
      (update (fun _ => 0) (trampolineVa >>> 12)
        (pa2pte s0.trampoline ||| (pteR ||| pteX) ||| pteV))).pre ?_)
      fun r => ?_
    · grind
    refine .ite (fun _ => ?_) fun hr => .pure ?_
    · refine .bind ((hK.uvmunmapFixed rfl (.inl rfl)).pre fun n s h => h.1) fun _ => ?_
      exact .bind (hK.uvmfree rfl (Nat.zero_le _)) fun _ => .pure fun n s h => h
    · rintro n s ⟨hJ, ⟨-, hB, hl⟩ | h1⟩
      · rw [show s0.trapframePa p = tf by rw [Kernel.trapframePa, htf]; rfl] at hl
        obtain ⟨hfixed, hzero⟩ := (hK.own hJ).fixed htf hB (by decide) (by decide) hl
        exact hK.quiet hJ (.settle rfl hfixed hzero)
      · omega

theorem beside_procPagetable (p : ProcId) : Keeps Kernel.beside (GemOS.procPagetable p) := by
  refine .bind beside_uvmcreate fun r => ?_
  cases r with
  | none => exact .pure _
  | some root =>
    refine .bind .get fun s => .bind (beside_mappages ..) fun r => .ite ?_ ?_
    · exact .bind (beside_uvmfree ..) fun _ => .pure _
    · refine .bind (beside_mappages ..) fun r => .ite ?_ (.pure _)
      exact .bind (beside_uvmunmap ..) fun _ => .bind (beside_uvmfree ..) fun _ => .pure _

/-- A spare table is torn down. -/
theorem Kept.procFreepagetable (hK : Kept G J) {sz : Nat} {x : Option ProcId}
    (hspare : g.spare = some (root, x)) (hsz : sz ≤ trapframeVa) :
    Triple G (J g) (procFreepagetable root sz) fun _ => J { g with spare := none } := by
  have hunsettle : ∀ n s, J g n s → J { g with spare := some (root, none) } n s :=
    fun n s hJ => hK.quiet hJ (.unsettle hspare)
  refine .bind ((hK.uvmunmapFixed rfl (.inl rfl)).pre hunsettle) fun _ => ?_
  refine .bind (hK.uvmunmapFixed rfl (.inr rfl)) fun _ => ?_
  exact hK.uvmfree rfl hsz

theorem beside_procFreepagetable (root sz : Nat) :
    Keeps Kernel.beside (GemOS.procFreepagetable root sz) :=
  .bind (beside_uvmunmap ..) fun _ => .bind (beside_uvmunmap ..) fun _ => beside_uvmfree ..

-- ======== processes

/-- An update that changes nothing. -/
theorem Kernel.updProc_noop (h : f (s.proc p) = s.proc p) : s.updProc p f = s := by
  unfold Kernel.updProc
  rw [h, update_eq_self]

/-- A process is dismantled in one move. -/
theorem Kept.freeproc (hK : Kept G J) (hat : g.AtRest) (hspare : g.spare = none) :
    Triple G (J g) (freeproc p) fun _ => J g := by
  refine .of_eq fun n0 s0 hJ => ?_
  have hsz := (hK.own hJ).sz p
  generalize hg1 : ({ g with
    dying := some p
    spare := (s0.proc p).pagetable.map fun root => (root, none) } : Ghost) = g1
  have hend : { g1 with spare := none, dying := none } = g := by
    rw [← hg1, ← hspare, ← hat.dying]
  refine .bind (M := fun _ n s => J g1 n s ∧ s = s0) (.note ?_) fun _ =>
    .get_bind fun s1 => .of_pre (c := s1 = s0) ?_ fun hs => ?_
  · rintro n s ⟨rfl, rfl⟩ hG
    refine ⟨?_, rfl⟩
    rw [← hg1]
    exact hK.move hJ (.reap hat.pending hspare hat.dying) (by simpa using hG)
  · rintro n s ⟨⟨-, rfl⟩, rfl⟩
    rfl
  subst hs
  -- once the trapframe is gone: the table, then the slot
  have hrest : ∀ {rest : K Unit}, ((s1.proc p).pagetable = none →
      rest = (modify fun s => s.updProc p Proc.cleared : K Unit)) →
      (∀ root, (s1.proc p).pagetable = some root → rest = do
        GemOS.procFreepagetable root (s1.proc p).sz
        modify fun s => s.updProc p Proc.cleared) →
      Triple G (fun n s => J g1 n s ∧ (s.proc p).trapframe = none) rest fun _ => J g := by
    intro rest hnone hsome
    have hclear : Triple G (fun n s => J { g1 with spare := none } n s
          ∧ (s.proc p).trapframe = none)
        (modify fun s => s.updProc p Proc.cleared : K Unit) fun _ => J g := by
      refine .modify fun n s h => ?_
      rw [← hend]
      exact hK.quiet h.1 (.clear (by rw [← hg1]) rfl h.2)
    cases hpt : (s1.proc p).pagetable with
    | some root =>
      have hsp : g1.spare = some (root, none) := by rw [← hg1, hpt]; rfl
      rw [hsome root hpt]
      exact .bind ((hK.procFreepagetable hsp hsz).keep (keeps_proc (beside_procFreepagetable ..))
        fun proc => (proc p).trapframe = none) fun _ => hclear
    | none =>
      rw [hnone hpt]
      refine hclear.pre fun n s h => ⟨?_, h.2⟩
      rw [show { g1 with spare := none } = g1 by rw [← hg1, hpt]; rfl]
      exact h.1
  cases htf : (s1.proc p).trapframe with
  | some tf =>
    refine .bind (M := fun _ n s => ∃ s2, J g1 n s2
      ∧ (s2.proc p).trapframe = some tf ∧ s = s2.push tf) ?_ fun _ =>
      .bind (.modify ?_) fun _ => hrest (fun h => by rw [h]) fun root h => by rw [h]
    · rintro n s u s' t ⟨⟨hJ1, rfl⟩, -⟩ hrun _
      obtain ⟨rfl, rfl⟩ := kfree_ok hrun
      rw [List.append_nil]
      exact ⟨s, hJ1, htf, rfl⟩
    · rintro n s ⟨s2, hJ1, htf2, rfl⟩
      refine ⟨hK.quiet hJ1 (.freeTrapframe (by rw [← hg1]) htf2 ?_), ?_⟩
      · grind [Option.map_eq_some_iff]
      · rw [Kernel.updProc_self]
  | none =>
    refine .bind (.modify ?_) fun _ => hrest (fun h => by rw [h]) fun root h => by rw [h]
    rintro n s ⟨⟨hJ1, rfl⟩, -⟩
    rw [Kernel.updProc_noop (by rw [← htf])]
    exact ⟨hJ1, htf⟩

theorem unusedSlot_spec (h : s.unusedSlot = some p) : (s.proc p).state = .unused := by
  simpa using List.find?_some h

/-- An update of one slot that keeps its memory. -/
theorem Aside.upd (hsz : (f (s.proc p)).sz = (s.proc p).sz)
    (hpt : (f (s.proc p)).pagetable = (s.proc p).pagetable)
    (htf : (f (s.proc p)).trapframe = (s.proc p).trapframe)
    (hsound : (s.proc p).Sound → (f (s.proc p)).Sound)
    (hres : (s.proc p).pagetable ≠ none → (f (s.proc p)).residentPages = (s.proc p).residentPages) :
    Aside s (s.updProc p f) :=
  { Aside.refl s with
    sz := s.updProc_field Proc.sz p hsz
    pagetable := s.updProc_field Proc.pagetable p hpt
    trapframe := s.updProc_field Proc.trapframe p htf
    procs := by
      intro q hq
      by_cases hqp : q = p
      · subst hqp
        rw [s.updProc_self]
        exact hsound hq
      · rwa [s.updProc_of_ne _ hqp]
    idle := fun h => h.congr rfl rfl
    resident := by
      intro q hq
      by_cases hqp : q = p
      · subst hqp
        rw [s.updProc_self]
        exact hres hq
      · rw [s.updProc_of_ne _ hqp] }

theorem Aside.pids (s : Kernel) (k : Int) (p : ProcId) :
    Aside s { s with nextpid := k, initproc := p } :=
  { Aside.refl s with idle := fun h => h.congr rfl rfl }

/-- A slot being set up: no table yet, and no memory. -/
def Proc.Fresh (q : Proc) : Prop :=
  q.state = .used ∧ q.pagetable = none ∧ q.sz = 0

/-- A new process has a table and no memory. -/
theorem Kept.allocproc (hK : Kept G J) (hat : g.AtRest) (hspare : g.spare = none) :
    Triple G (J g) allocproc fun r n s => J g n s ∧ ∀ p, r = some p →
      (s.proc p).pagetable ≠ none ∧ (s.proc p).sz = 0 := by
  have hg : { g with spare := none } = g := by
    rw [← hspare]
  have hfail : ∀ {p : ProcId} {P : Notes Mark Kernel → Kernel → Prop}, (∀ n s, P n s → J g n s) →
      Triple G P (do GemOS.freeproc p; return none) fun r n s => J g n s ∧ ∀ p, r = some p →
          (s.proc p).pagetable ≠ none ∧ (s.proc p).sz = 0 :=
    fun hP => .bind ((hK.freeproc hat hspare).pre hP) fun _ =>
      .pure fun n s h => ⟨h, nofun⟩
  refine .get_bind fun s0 => ?_
  cases hslot : s0.unusedSlot with
  | none => exact .pure fun n s h => ⟨h.1, nofun⟩
  | some p =>
    have hunused := unusedSlot_spec hslot
    refine .bind (M := fun _ n s => J g n s ∧ (s.proc p).Fresh
      ∧ (s.proc p).trapframe = none) (.modify ?_) fun _ => ?_
    · rintro n s ⟨hJ, rfl⟩
      obtain ⟨hpt, htf, hsz⟩ := ((hK.own hJ).procs p (hat.alive p)).unused hunused
      have hclaim : Aside s (s.updProc p fun q => q.claimed s.nextpid) := by
        refine .upd rfl rfl rfl (fun _ => ?_) fun hne => absurd hpt hne
        exact ⟨nofun, fun _ _ => rfl, fun _ hu => absurd rfl hu⟩
      refine ⟨hK.quiet hJ (.aside (hclaim.trans (.pids _ _ s.initproc))), ?_⟩
      show ((s.updProc p fun q => q.claimed s.nextpid).proc p).Fresh
        ∧ ((s.updProc p fun q => q.claimed s.nextpid).proc p).trapframe = none
      rw [s.updProc_self]
      exact ⟨⟨rfl, hpt, hsz⟩, htf⟩
    refine .bind ((hK.kalloc g).keep (keeps_proc beside_kalloc) fun proc =>
      (proc p).Fresh ∧ (proc p).trapframe = none) fun r => ?_
    cases r with
    | none =>
      refine .bind (M := fun _ => J g) (.modify ?_) fun _ => hfail fun n s h => h
      rintro n s ⟨hJ, -, htf⟩
      rw [Kernel.updProc_noop (by rw [← htf])]
      exact hJ
    | some tf =>
      refine .bind (M := fun _ n s => (J g n s ∧ (s.proc p).trapframe = some tf) ∧ (s.proc p).Fresh)
        (.modify ?_) fun _ => ?_
      · rintro n s ⟨hJ, hfresh, -⟩
        rw [Kernel.updProc_self]
        refine ⟨⟨hK.quiet hJ (.setTrapframe rfl hspare hfresh.2.1 ?_), rfl⟩, hfresh⟩
        rw [hfresh.1]
        exact nofun
      refine .bind ((hK.procPagetable hspare).keep (keeps_proc (beside_procPagetable p)) fun proc =>
          (proc p).Fresh) fun r => ?_
      cases r with
      | none =>
        refine .bind (M := fun _ => J g) (.modify ?_) fun _ => hfail fun n s h => h
        rintro n s ⟨hJ, hfresh⟩
        rw [Kernel.updProc_noop (by rw [← hfresh.2.1]), ← hg]
        exact hJ
      | some root =>
        refine .bind (M := fun _ n s => J g n s
          ∧ (s.proc p).pagetable ≠ none ∧ (s.proc p).sz = 0) (.modify ?_)
          fun _ => .pure fun n s h => ⟨h.1, fun q hq => ?_⟩
        · rintro n s ⟨hJ, hst, hpt, hsz⟩
          rw [Kernel.updProc_self, ← hg]
          refine ⟨hK.quiet hJ (.attach rfl hat.dying hpt ?_), nofun, hsz⟩
          rw [hst]
          exact nofun
        · cases hq
          exact h.2

theorem Kept.userinit (hK : Kept G J) (hat : g.AtRest)
    (hspare : g.spare = none) : Triple G (J g) userinit fun _ => J g := by
  refine .bind (hK.allocproc hat hspare) fun r => ?_
  cases r with
  | none => exact .fault
  | some p =>
    refine .modify fun n s h => hK.quiet h.1 (.aside ?_)
    have hrun : Aside s (s.updProc p fun q => { q with state := .runnable }) :=
      .upd rfl rfl rfl (fun _ => ⟨nofun, nofun, fun _ _ => (h.2 p rfl).1⟩) fun _ => rfl
    exact hrun.trans (.pids _ s.nextpid p)

-- ======== growing

theorem Settled.of_pagetable (hat : g.AtRest)
    (h : (s.proc p).pagetable = some root) : Settled g root s.proc :=
  ⟨p, .inl ⟨hat.alive p, h⟩⟩

/-- The table of a process is its own. -/
theorem Own.above (h : Own g s) (hat : g.AtRest) (hp : (s.proc p).pagetable = some root) :
    Above root (s.proc p).sz s.proc := by
  intro q hroot
  rw [h.apart q p root ⟨hat.alive q, hroot⟩ ⟨hat.alive p, hp⟩]

theorem beside_uvmalloc (root oldsz newsz xperm : Nat) :
    Keeps Kernel.beside (uvmalloc root oldsz newsz xperm) := by
  have hback : ∀ a old, Keeps Kernel.beside
      (do let _ ← GemOS.uvmdealloc root a old; return 0 : K Nat) := fun a old =>
    .bind (beside_uvmdealloc ..) fun _ => .pure _
  have hloop : ∀ n old a, Keeps Kernel.beside (uvmallocLoop root old newsz xperm n a) := by
    intro n old
    induction n with
    | zero => intro a; exact .pure _
    | succ n ih =>
      intro a
      refine .ite (.bind beside_kalloc fun r => ?_) (.pure _)
      cases r with
      | none => exact hback _ _
      | some mem =>
        refine .bind (.modify fun _ => rfl) fun _ =>
          .bind (beside_mappages ..) fun r => .ite ?_ (ih _)
        exact .bind (beside_kfree _) fun _ => hback _ _
  exact .ite (.pure _) (hloop _ _ _)

/-- The size moves with what is mapped. -/
theorem Kept.growproc (hK : Kept G J) (hat : g.AtRest) :
    Triple G (J g) (growproc me k) fun _ => J g := by
  have hset : ∀ sz root : Nat, sz ≤ trapframeVa → Triple G
      (fun n s => J g n s ∧ (s.proc me).pagetable = some root) (do
        modify fun s => s.updProc me fun q => { q with sz := sz }
        return 0 : K Int) fun _ => J g := fun sz root hsz =>
    .bind (.modify fun n s h => hK.quiet h.1
      (.setSz ⟨hat.alive _, h.2⟩ hsz)) fun _ =>
      .pure fun n s h => h
  refine .get_bind fun s0 => .of_pre (c := (s0.proc me).sz ≤ trapframeVa) ?_ fun hsz => ?_
  · rintro n s ⟨hJ, rfl⟩
    exact (hK.own hJ).sz me
  refine .ite (fun _ => .ite (fun _ => .pure fun n s h => h.1) fun _ => ?_)
    fun _ => .ite (fun _ => ?_) fun _ => .pure fun n s h => h.1
  · refine .bind (Kept.pagetableOf me) fun root => ?_
    refine .bind (((hK.uvmalloc hat.pending (by decide) hsz).keep
      (keeps_proc (beside_uvmalloc ..)) fun proc =>
        (proc me).pagetable = some root).pre ?_) fun sz' => ?_
    · rintro n s ⟨⟨hJ, rfl⟩, hpt⟩
      exact ⟨⟨hJ, .of_pagetable hat hpt, (hK.own hJ).above hat hpt⟩, hpt⟩
    refine .of_pre (c := sz' ≤ trapframeVa) (fun n s h => h.1.2) fun hle => ?_
    exact .ite (fun _ => .pure fun n s h => h.1.1) fun _ =>
      (hset sz' root hle).pre fun n s h => ⟨h.1.1, h.2⟩
  · refine .bind (Kept.pagetableOf me) fun root => ?_
    have hrest : Triple G (fun n s => J g n s ∧ (s.proc me).pagetable = some root) (do
          let sz' ← GemOS.uvmdealloc root (s0.proc me).sz (addInt (s0.proc me).sz k)
          modify fun s => s.updProc me fun q => { q with sz := sz' }
          return 0 : K Int) fun _ => J g := by
      refine .bind ((hK.uvmdealloc hsz).keep (keeps_proc (beside_uvmdealloc ..))
        fun proc => (proc me).pagetable = some root) fun sz' => ?_
      exact .of_pre (fun n s h => h.1.2) fun hle =>
        (hset sz' root hle).pre fun n s h => ⟨h.1.1, h.2⟩
    refine .ite (fun _ => .bind (.note fun n s h hG => ?_) fun _ => hrest)
      fun _ => hrest.pre fun n s h => ⟨h.1.1, h.2⟩
    exact ⟨hK.move h.1.1 (.shrink hat.pending) (by simpa using hG), h.2⟩

/-- An eager `sbrk` grows, a lazy one moves the size alone. -/
theorem Kept.sysSbrk (hK : Kept G J) {eager : Bool} (hat : g.AtRest) :
    Triple G (fun n s => J g n s ∧ ∃ root, (s.proc me).pagetable = some root)
      (sysSbrk me k eager) fun _ => J g := by
  refine .get_bind fun s0 => .ite (fun _ => ?_) fun _ => ?_
  · exact .bind ((hK.growproc hat).pre fun n s h => h.1.1) fun r =>
      .ite (fun _ => .pure fun n s h => h) fun _ => .pure fun n s h => h
  · refine .ite (fun _ => .pure fun n s h => h.1.1) fun _ =>
      .ite (fun _ => .pure fun n s h => h.1.1) fun hle => ?_
    refine .bind (.modify fun n s h => ?_) fun _ => .pure fun n s h => h
    obtain ⟨⟨hJ, root, hpt⟩, -⟩ := h
    exact hK.quiet hJ (.setSz ⟨hat.alive _, hpt⟩ (Nat.not_lt.mp hle))

-- ======== fork, exit and wait

theorem beside_uvmcopy (old new sz : Nat) : Keeps Kernel.beside (uvmcopy old new sz) := by
  have hloop : ∀ n i, Keeps Kernel.beside (uvmcopyLoop old new n i) := by
    intro n
    induction n with
    | zero => intro i; exact .pure _
    | succ n ih =>
      intro i
      refine .bind (beside_walk ..) fun b => .ite ?_ (ih _)
      refine .bind .get fun s => .ite ?_ (ih _)
      refine .bind beside_kalloc fun r => ?_
      cases r with
      | none => exact .bind (beside_uvmunmap ..) fun _ => .pure _
      | some mem =>
        refine .bind (.modify fun _ => rfl) fun _ =>
          .bind (beside_mappages ..) fun r => .ite ?_ (ih _)
        exact .bind (beside_kfree _) fun _ => .bind (beside_uvmunmap ..) fun _ => .pure _
  exact hloop ..

/-- The child gets a copy, or its slot is freed again. -/
theorem Kept.kfork (hK : Kept G J) (hspare : g.spare = none) (hat : g.AtRest) :
    Triple G (J g) (kfork me) fun _ => J g := by
  refine .bind (hK.allocproc hat hspare) fun r => ?_
  cases r with
  | none => exact .pure fun n s h => h.1
  | some np =>
    refine .bind (Kept.pagetableOf me) fun old =>
      .bind (Kept.pagetableOf np) fun new => .get_bind fun s0 => ?_
    refine .of_pre (c := (s0.proc me).sz ≤ trapframeVa) ?_ fun hsz => ?_
    · rintro n s ⟨⟨⟨⟨hJ, -⟩, -⟩, -⟩, rfl⟩
      exact (hK.own hJ).sz me
    refine .bind (((hK.uvmcopy hat.pending hsz).keep (keeps_proc (beside_uvmcopy ..)) fun proc =>
        (proc np).pagetable = some new).pre ?_)
      fun r => .ite (fun _ => ?_) fun _ => ?_
    · rintro n s ⟨⟨⟨⟨hJ, hnp⟩, -⟩, hpt⟩, -⟩
      have habove := (hK.own hJ).above hat hpt
      rw [(hnp np rfl).2] at habove
      exact ⟨⟨hJ, habove⟩, hpt⟩
    · exact .bind ((hK.freeproc hat hspare).pre fun n s h => h.1) fun _ =>
        .pure fun n s h => h
    refine .bind (M := fun _ n s => J g n s
      ∧ (s.proc np).pagetable = some new) (.modify fun n s h => ?_) fun _ =>
      .bind (M := fun _ n s => J g n s ∧ (s.proc np).pagetable = some new)
        (.modify fun n s h => ?_) fun _ =>
      .bind (M := fun _ => J g) (.modify fun n s h => ?_) fun _ =>
      .get_bind fun s1 => .pure fun n s h => h.1
    · exact ⟨hK.quiet h.1 (.setSz ⟨hat.alive _, h.2⟩ ((hK.own h.1).sz me)),
        (s.updProc_field Proc.pagetable np rfl np).trans h.2⟩
    · exact ⟨hK.quiet h.1 (.aside (.mem s _)), h.2⟩
    · exact hK.quiet h.1 (.aside (.upd rfl rfl rfl (fun _ => .of_table h.2 nofun) fun _ => rfl))

theorem Aside.reparent (s : Kernel) (p : ProcId) : Aside s (s.reparent p) := by
  have hfield : ∀ {α : Type} (φ : Proc → α), (∀ q r, φ { q with parent := r } = φ q) →
      ∀ q, φ ((s.reparent p).proc q) = φ (s.proc q) := by
    intro α φ hφ q
    show φ (if (s.proc q).parent = some p then _ else _) = _
    split
    · exact hφ _ _
    · rfl
  have hst := hfield Proc.state fun _ _ => rfl
  have hsz := hfield Proc.sz fun _ _ => rfl
  have hpt := hfield Proc.pagetable fun _ _ => rfl
  have htf := hfield Proc.trapframe fun _ _ => rfl
  have hres := hfield Proc.residentPages fun _ _ => rfl
  exact { Aside.refl s with
      sz := hsz
      pagetable := hpt
      trapframe := htf
      procs := by
        intro q hq
        constructor
        · rw [hst, hpt, htf, hsz]
          exact hq.unused
        · rw [hst, hpt, hres]
          exact hq.used
        · rw [hst, hpt]
          exact hq.table
      idle := fun h => h.congr rfl rfl
      resident := fun q _ => hres q }

theorem Kept.kexit (hK : Kept G J) {status : Int} :
    Triple G (fun n s => J g n s ∧ ∃ root, (s.proc me).pagetable = some root)
      (kexit me status) fun _ => J g := by
  refine .get_bind fun s0 => .ite (fun _ => .fault) fun _ => .modify ?_
  rintro n s ⟨⟨hJ, root, hpt⟩, -⟩
  have hpt' : ((s.reparent me).proc me).pagetable = some root :=
    ((Aside.reparent s me).pagetable me).trans hpt
  exact hK.quiet hJ (.aside ((Aside.reparent s me).trans
    (.upd rfl rfl rfl (fun _ => .of_table hpt' nofun) fun _ => rfl)))

/-- A zombie is reaped after its status is copied out. -/
theorem Kept.kwait (hK : Kept G J) {addr : Nat} (hspare : g.spare = none) (hat : g.AtRest) :
    Triple G (J g) (kwait me addr) fun _ => J g := by
  refine .get_bind fun s0 => ?_
  cases s0.zombieChild me with
  | none =>
    exact .ite (fun _ => .pure fun n s h => h.1) fun _ => .pure fun n s h => h.1
  | some pp =>
    have hrest : ∀ r : Int, Triple G (J g) (if r < 0 then return some (-1) else do
          GemOS.freeproc pp
          return some (s0.proc pp).pid : K (Option Int)) fun _ => J g := fun r =>
      .ite (fun _ => .pure fun n s h => h) fun _ =>
        .bind (hK.freeproc hat hspare) fun _ => .pure fun n s h => h
    refine .ite (fun _ => ?_) fun _ => ?_
    · refine .bind (Kept.pagetableOf me) fun root => ?_
      exact .bind ((hK.copyout hat).pre fun n s h => h.1.1) hrest
    · exact .bind (.pure fun n s h => h.1) hrest

end GemOS
