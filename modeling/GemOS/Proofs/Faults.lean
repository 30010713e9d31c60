/-
Page faults map, below the size of the process, what was not mapped.

An eviction only takes mappings away (`Fades`), from whatever table the
frame entry names: what a fault has found to be invalid is still invalid
when it maps the page, so it never runs into `mappages`'s panic, with or
without evictions on the way. What looking for a page does to the tables
and the free list is said once, in `Tended` and `Calm`. Nothing here
depends on who owns which page.
-/
import GemOS.Proofs.ExecImage

namespace GemOS

open Function Prog

/-- Any fault but the two panics that a wrong address space would
cause. -/
def Benign (e : Fault) : Prop :=
  e ≠ .panic "mappages: remap" ∧ e ≠ .panic "freewalk: leaf"

instance : DecidablePred Benign := fun _ => inferInstanceAs (Decidable (_ ∧ _))

-- ======== fading

/-- No mapping was made. -/
structure Fades (s s' : Kernel) : Prop where
  live : ∀ r, (s'.pagetables r).live = (s.pagetables r).live
  leaf : ∀ r v, isV ((s'.pagetables r).leaf v) = true → isV ((s.pagetables r).leaf v) = true

theorem Fades.of_tables {s s' : Kernel} (h : s'.pagetables = s.pagetables) : Fades s s' :=
  ⟨fun r => by rw [h], fun r v hV => by rwa [h] at hV⟩

theorem Fades.refl (s : Kernel) : Fades s s := .of_tables rfl

/-- No entry becomes valid again. -/
theorem Fades.trans {s s1 s' : Kernel} (h : Fades s s1) (h' : Fades s1 s') : Fades s s' :=
  ⟨fun r => (h'.live r).trans (h.live r), fun r v hV => h.leaf r v (h'.leaf r v hV)⟩

-- ======== looking for a page

section tended

/-- The image of the kernel ends in RAM; free pages, and pages that can
come back, are pages of RAM. -/
structure RamStock (s : Kernel) : Prop where
  kend : kernbase ≤ s.kend ∧ s.kend ≤ phystop
  ram : ∀ pa ∈ s.freelist ++ s.held, RamPage pa

/-- What looking for a page leaves: no mapping is made, and no table is
freed or grown. -/
structure Tended (s s' : Kernel) : Prop where
  kend : s'.kend = s.kend
  mode : s'.raidMode = s.raidMode
  pagetable : ∀ p, (s'.proc p).pagetable = (s.proc p).pagetable
  live : ∀ r, (s'.pagetables r).live = (s.pagetables r).live
  mid : ∀ r, (s'.pagetables r).mid = (s.pagetables r).mid
  leaf : ∀ r v, isV ((s'.pagetables r).leaf v) = true → isV ((s.pagetables r).leaf v) = true
  stocked : RamStock s → RamStock s'

/-- Page tables and swap table are as before. -/
structure Untouched (s s' : Kernel) : Prop where
  tables : s'.pagetables = s.pagetables
  swaps : s'.swapDiskTable = s.swapDiskTable

variable {s s1 s' : Kernel} {E : Fault → Prop} {α : Type}

theorem Tended.refl (s : Kernel) : Tended s s :=
  ⟨rfl, rfl, fun _ => rfl, fun _ => rfl, fun _ => rfl, fun _ _ => id, id⟩

theorem Tended.trans (h : Tended s s1) (h' : Tended s1 s') : Tended s s' where
  kend := h'.kend.trans h.kend
  mode := h'.mode.trans h.mode
  pagetable := fun p => (h'.pagetable p).trans (h.pagetable p)
  live := fun r => (h'.live r).trans (h.live r)
  mid := fun r => (h'.mid r).trans (h.mid r)
  leaf := fun r v hV => h.leaf r v (h'.leaf r v hV)
  stocked := fun hs => h'.stocked (h.stocked hs)

theorem Untouched.trans (h : Untouched s s1) (h' : Untouched s1 s') : Untouched s s' :=
  ⟨h'.tables.trans h.tables, h'.swaps.trans h.swaps⟩

/-- Nothing that matters to a fault but the allocator has changed. -/
structure Calm (s s' : Kernel) : Prop where
  tended : Tended s s'
  untouched : Untouched s s'

theorem Calm.refl (s : Kernel) : Calm s s := ⟨.refl s, rfl, rfl⟩

theorem Calm.trans (h : Calm s s1) (h' : Calm s1 s') : Calm s s' :=
  ⟨h.tended.trans h'.tended, h.untouched.trans h'.untouched⟩

instance : Std.Refl Calm := ⟨.refl⟩

instance : IsTrans Kernel Calm := ⟨fun _ _ _ => .trans⟩

/-- Tables are only weakened. -/
theorem Tended.fades (h : Tended s s') : Fades s s' := ⟨h.live, h.leaf⟩

/-- Tables, allocator and the constants of a boot, as one value. -/
def Kernel.ground (s : Kernel) : (Nat × RaidMode) × (Nat → PageTable) × List Nat × List Nat :=
  ((s.kend, s.raidMode), s.pagetables, s.freelist, s.held)

/-- A change outside the tables and the allocator. -/
theorem Tended.of_eq (h : s'.ground = s.ground)
    (hp : ∀ p, (s'.proc p).pagetable = (s.proc p).pagetable) : Tended s s' := by
  simp only [Kernel.ground, Prod.mk.injEq] at h
  obtain ⟨⟨hk, hmode⟩, ht, hfree, hheld⟩ := h
  refine ⟨hk, hmode, hp, fun r => by rw [ht], fun r => by rw [ht], fun r v hV => by rwa [ht] at hV,
    fun hs => ⟨hk ▸ hs.kend, ?_⟩⟩
  rw [hfree, hheld]
  exact hs.ram

/-- Queue, counters and frames do not matter. -/
theorem Calm.of_eq (h : s'.ground = s.ground)
    (hp : ∀ p, (s'.proc p).pagetable = (s.proc p).pagetable)
    (hsw : s'.swapDiskTable = s.swapDiskTable) : Calm s s' :=
  ⟨.of_eq h hp, ⟨(Prod.mk.inj (Prod.mk.inj h).2).1, hsw⟩⟩

/-- Statistics change. -/
theorem Calm.count (p : ProcId) {f : Proc → Proc} (hf : ∀ q, (f q).pagetable = q.pagetable) :
    Calm s (s.updProc p f) :=
  .of_eq rfl (fun q => s.updProc_field Proc.pagetable p (hf _) q) rfl

/-- A page of RAM if the stock is one of RAM. -/
theorem wp_kalloc_calm : wp E kalloc (fun r s' => Calm s s'
    ∧ ∀ pa, r = some pa → RamStock s → RamPage pa) s := by
  have hrun : ∃ r s' t, kalloc s = .ok (r, s', t) := by
    rw [kalloc_run]
    cases s.interfered.freelist <;> exact ⟨_, _, _, rfl⟩
  obtain ⟨r, s', t, hrun⟩ := hrun
  obtain ⟨-, fl, hd, m, e, rfl, hp, -⟩ := kalloc_ok hrun
  rw [List.append_assoc] at hp
  have hmem : ∀ pa, pa ∈ r.toList ++ (fl ++ hd) →
      pa ∈ s.freelist ++ s.held := fun pa h => hp.mem_iff.mp h
  refine .of_ok hrun ⟨⟨⟨rfl, rfl, fun _ => rfl, fun _ => rfl, fun _ => rfl,
    fun _ _ => id, fun hs => ⟨hs.kend, fun pa h => ?_⟩⟩, ⟨rfl, rfl⟩⟩,
    fun pa hr hs => hs.ram pa (hmem pa ?_)⟩
  · exact hs.ram pa (hmem pa (List.mem_append_right _ h))
  · rw [hr]
    exact List.mem_append_left _ List.mem_cons_self

theorem calm_kalloc : Within Benign Calm kalloc := fun _ => wp_kalloc_calm.mono fun _ _ h => h.1

theorem calm_kfree (pa : Nat) : Within Benign Calm (kfree pa) := by
  refine fun s => .get_bind (.ite (fun _ => .fault (by decide)) fun hc => .modify ?_)
  refine ⟨⟨rfl, rfl, fun _ => rfl, fun _ => rfl, fun _ => rfl, fun _ _ => id,
    fun hs => ⟨hs.kend, fun b hb => ?_⟩⟩, ⟨rfl, rfl⟩⟩
  rcases List.mem_cons.mp hb with rfl | hb
  · have := hs.kend.1
    refine ⟨?_, ?_, ?_⟩ <;> omega
  · exact hs.ram b hb

/-- A request is made or refused. -/
theorem calm_addDiskRequest (type : DiskOp) (block : Int) (buffer : Nat)
    (p : Option ProcId) : Within Benign Calm (addDiskRequest type block buffer p) := by
  refine .bind (.bind calm_kalloc fun r => ?_) fun r => ?_
  · cases r with
    | none => exact .pure _
    | some req =>
      refine .bind (.bind .get fun s => ?_) fun b =>
        .ite (.pure _) (.bind (calm_kfree _) fun _ => .pure _)
      cases raidMapLogicalToPhysical s.raidMode block with
      | none => exact .pure _
      | some loc =>
        refine .bind (.modify fun s => ?_) fun _ => .pure _
        unfold Kernel.enqueue
        cases s.diskQueueTail <;> exact .of_eq rfl (fun _ => rfl) rfl
  · cases r <;> exact .pure _

/-- A request is taken off the queue. -/
theorem calm_scheduleNextRequest : Within Benign Calm scheduleNextRequest := by
  refine .bind .get fun s => ?_
  cases s.diskSchedPolicy with
  | fcfs =>
    refine .bind .get fun s => ?_
    cases s.diskQueueHead with
    | none => exact .pure _
    | some req => exact .bind (.modify fun _ => .of_eq rfl (fun _ => rfl) rfl) fun _ => .pure _
  | sstf =>
    refine .bind .get fun s => ?_
    cases s.diskQueueHead with
    | none => exact .pure _
    | some head =>
      dsimp only
      cases s.sstfWalk ramPages none (some head) _ with
      | none => exact .fault (by decide)
      | some b =>
        refine .bind (.modify fun s => ?_) fun _ => .pure _
        unfold Kernel.sstfUnlink
        cases b.prevBest <;> exact .of_eq rfl (fun _ => rfl) rfl

theorem Calm.processed (s : Kernel) (req : Nat) : Calm s (s.processed req) := by
  obtain ⟨_, _, _, _, _, proc, h, hbare⟩ := s.processed_shape req
  rw [h]
  exact .of_eq rfl (fun p => (Proc.bare_eq (hbare p)).2.2.1) rfl

theorem calm_serveNext : Within Benign Calm serveNext := by
  refine .bind calm_scheduleNextRequest fun r => ?_
  cases r with
  | none => exact .pure _
  | some req => exact .bind (.modify fun s => .processed s req) fun _ => calm_kfree _

/-- A request is made and one is served. -/
theorem calm_submitRequest (type : DiskOp) (block : Int) (buffer : Nat)
    (p : Option ProcId) : Within Benign Calm (submitRequest type block buffer p) :=
  .bind (calm_addDiskRequest type block buffer p) fun _ => .ite (.pure _)
    (.bind calm_serveNext fun _ => .pure _)

/-- Looking for a PTE, where it leads. -/
theorem wp_look {root va : Nat} {s : Kernel} : wp Benign (walk root va false) (fun b s' => s' = s
      ∧ b = ((s.pagetables root).mid (va >>> 21)).isSome) s := by
  by_cases hva : va < maxva
  · by_cases hlive : (s.pagetables root).live = true
    · exact wp_lookup hva hlive
    · exact .ite (fun h => absurd hva (Nat.not_lt.mpr h)) fun _ =>
        .get_bind (.ite (fun h => absurd h hlive) fun _ => .fault (by decide))
  · exact .ite (fun _ => .fault (by decide)) fun h => absurd (Nat.not_le.mp h) hva

theorem wp_markSwappedOut_tended (idx slot : Nat) : wp Benign (markSwappedOut idx slot)
      (fun _ s' => Tended s s') s := by
  have hframe : Tended s (s.setFrame idx
      { s.frameTable idx with swapped := true, swapIndex := slot }) := .of_eq rfl fun _ => rfl
  refine .note_bind (.modify_bind (.get_bind ?_))
  generalize s.setFrame idx
    { s.frameTable idx with swapped := true, swapIndex := slot } = s1 at hframe
  cases (s1.frameTable idx).owner with
  | none => exact .fault (by decide)
  | some p =>
    dsimp only
    cases (s1.proc p).pagetable with
    | none => exact .fault (by decide)
    | some root =>
      refine .bind wp_look fun b s2 h => ?_
      obtain ⟨rfl, -⟩ := h
      refine .ite (fun _ => .modify ?_) fun _ => .pure hframe
      refine hframe.trans ⟨rfl, rfl, fun _ => rfl, fun r => ?_, fun r => ?_,
        fun r v hV => ?_, fun hs => ⟨hs.kend, hs.ram⟩⟩
      · rw [Kernel.setLeaf_live]
      · rw [Kernel.setLeaf_mid]
      · rcases s2.setLeaf_leaf_cases root (s2.frameTable idx).vaddr
          (swappedPte (s2.pte root (s2.frameTable idx).vaddr) slot) r v with heq | ⟨-, -, heq⟩
        · rwa [heq] at hV
        · rw [heq, isV_swappedPte] at hV
          cases hV

/-- A page goes out, if it is one of the frame table. -/
theorem wp_swapPageOut (pa : Nat) : wp Benign (swapPageOut pa)
    (fun r s' => Tended s s' ∧ (r = 0 → (s.getFrameEntry pa).isSome)) s := by
  refine .get_bind ?_
  cases hentry : s.getFrameEntry pa with
  | none => exact .pure ⟨.refl s, nofun⟩
  | some idx =>
    refine .ite (fun _ => .pure ⟨.refl s, fun _ => rfl⟩) fun _ => ?_
    have hfind : Within Benign Calm findSwapSlot := .bind .get fun _ => .pure _
    refine .bind (hfind s) fun r s1 h1 => ?_
    cases r with
    | none => exact .pure ⟨h1.tended, fun _ => rfl⟩
    | some slot =>
      have htake : Within Benign Calm takeSwapBlock := .bind .get fun _ => .ite (.pure _)
        (.bind (.modify fun _ => .of_eq rfl (fun _ => rfl) rfl) fun _ => .pure _)
      refine .bind (htake s1) fun r s2 h2 => ?_
      have hcalm := h1.trans h2
      cases r with
      | none => exact .pure ⟨hcalm.tended, fun _ => rfl⟩
      | some block =>
        refine .get_bind (.bind (calm_submitRequest _ _ _ _ s2) fun r s3 h3 => .ite
            (fun _ => .pure ⟨(hcalm.trans h3).tended, fun _ => rfl⟩) fun _ => .modify_bind ?_)
        have htend := (hcalm.trans h3).tended
        refine .bind (wp_markSwappedOut_tended idx slot) fun _ s4 h4 =>
          .pure ⟨(htend.trans ?_).trans h4, fun _ => rfl⟩
        exact .of_eq rfl fun _ => rfl

/-- A frame with an entry is a page of RAM. -/
theorem ramPage_of_entry {idx : Nat} (hs : RamStock s)
    (h : (s.getFrameEntry (s.frameIndexToPa idx)).isSome) : RamPage (s.frameIndexToPa idx) := by
  obtain ⟨halign, hlo, -⟩ := frameBase_bounds hs.kend.2
  have hkend := hs.kend.1
  unfold Kernel.getFrameEntry at h
  by_cases hc : s.frameIndexToPa idx < s.frameBase ∨ phystop ≤ s.frameIndexToPa idx
  · rw [if_pos hc] at h
    cases h
  · unfold Kernel.frameIndexToPa at hc ⊢
    simp only [RamPage, pgsize, kernbase, phystop] at *
    omega

/-- The clock changes reference bits only. -/
theorem wp_selectVictim (start : Fin maxFrames) :
    wp Benign (selectVictim start) (fun _ => Calm s) s := by
  refine .get_bind ?_
  cases s.clockScan start with
  | none => exact .fault (by decide)
  | some c =>
    refine .modify_bind ?_
    cases c.victim with
    | some idx => exact .pure (.of_eq rfl (fun _ => rfl) rfl)
    | none => exact .modify_bind (.get_bind (.pure (.of_eq rfl (fun _ => rfl) rfl)))

/-- What is found is a page of RAM. -/
theorem wp_kallocOrEvict : wp Benign kallocOrEvict (fun r s' => Tended s s'
    ∧ ∀ pa, r = some pa → RamStock s → RamPage pa) s := by
  refine .bind wp_kalloc_calm fun r s1 h => ?_
  cases r with
  | some pa => exact .pure ⟨h.1.tended, h.2⟩
  | none =>
    refine .bind (M := fun _ s' => s' = s1) (.get_bind (.pure rfl)) fun start s2 hs => ?_
    obtain rfl := hs
    refine .bind (wp_selectVictim start) fun r s3 h3 => ?_
    have hbefore := (h.1.trans h3).tended
    cases r with
    | none => exact .pure ⟨hbefore, nofun⟩
    | some v =>
      refine .get_bind (.bind (wp_swapPageOut _) fun r s4 h4 => ?_)
      have hall := hbefore.trans h4.1
      refine .ite (fun _ => .pure ⟨hall, nofun⟩) fun hr => ?_
      have hcount : Within Benign Calm (countEviction v) := by
        refine .modify fun s => ?_
        cases (s.frameTable v).owner with
        | none => exact .refl s
        | some p => exact .count p fun _ => rfl
      refine .bind (hcount s4) fun _ s5 h5 => .pure ⟨hall.trans h5.tended, fun pa hpa hs => ?_⟩
      obtain rfl := Option.some.inj hpa
      exact ramPage_of_entry (hbefore.stocked hs) (h4.2 (not_not.mp hr))

end tended

-- ======== growing

/-- What faults of process `me` can have done: mappings were made only
in its table, below its size, and no process got another address
space. -/
structure Grows (me : ProcId) (s s' : Kernel) : Prop where
  spaces : s'.spaces = s.spaces
  live : ∀ r, (s'.pagetables r).live = (s.pagetables r).live
  leaf : ∀ r v, isV ((s'.pagetables r).leaf v) = true → isV ((s.pagetables r).leaf v) = true
      ∨ ((s.proc me).pagetable = some r ∧ v < pagesOf (s.proc me).sz)

namespace Grows

variable {me : ProcId} {s s1 s' : Kernel}

theorem of_fades (hsp : s'.spaces = s.spaces) (h : Fades s s') : Grows me s s' :=
  ⟨hsp, h.live, fun r v hV => .inl (h.leaf r v hV)⟩

theorem refl (me : ProcId) (s : Kernel) : Grows me s s := of_fades rfl (.refl s)

theorem trans (h : Grows me s s1) (h' : Grows me s1 s') : Grows me s s' := by
  refine ⟨h'.spaces.trans h.spaces, fun r => (h'.live r).trans (h.live r), fun r v hV => ?_⟩
  obtain ⟨hpt, hsz, -⟩ := spaces_eq h.spaces me
  rcases h'.leaf r v hV with hV1 | hnew
  · exact h.leaf r v hV1
  · rw [hpt, hsz] at hnew
    exact .inr hnew

/-- A page is mapped. -/
theorem map {root v w : Nat} (hsp : s'.spaces = s.spaces) (hpt : (s.proc me).pagetable = some root)
    (hv : v < pagesOf (s.proc me).sz) (hext : Extends root s s') (hleaf : (s'.pagetables root).leaf
      = update (s.pagetables root).leaf v w) : Grows me s s' := by
  refine ⟨hsp, fun r => ?_, fun r u hV => ?_⟩
  · grind [hext.live, hext.others]
  · by_cases hr : r = root
    · subst hr
      by_cases hu : u = v
      · exact .inr ⟨hpt, hu ▸ hv⟩
      · rw [hleaf, update_of_ne hu] at hV
        exact .inl hV
    · rw [hext.others r hr] at hV
      exact .inl hV

end Grows

section faults

variable {me : ProcId} {root va : Nat} {s : Kernel}

/-- What is known of a process that faults on `va`: its table and its
size. -/
structure Faulting (me : ProcId) (root va : Nat) (s : Kernel) : Prop where
  table : (s.proc me).pagetable = some root
  live : (s.pagetables root).live = true
  align : va % pgsize = 0
  low : va < (s.proc me).sz
  size : (s.proc me).sz ≤ trapframeVa

/-- Other faults do not end this one. -/
theorem Faulting.grows {s' : Kernel} (h : Faulting me root va s)
    (hg : Grows me s s') : Faulting me root va s' := by
  obtain ⟨hpt, hsz, -⟩ := spaces_eq hg.spaces me
  exact ⟨hpt.trans h.table, (hg.live root).trans h.live, h.align,
    hsz.symm ▸ h.low, hsz.symm ▸ h.size⟩

/-- A program that only looks for pages, and what it leaves of the
address spaces. -/
theorem grows_of_tended {α : Type} {x : K α} (h : wp Benign x (fun _ => Tended s) s)
    (hsp : KeepsSpaces x) (me : ProcId) : wp Benign x (fun _ s' => Grows me s s' ∧ Fades s s') s :=
  (h.and_ok fun _ _ _ hrun => hsp hrun).mono fun _ _ h' => ⟨.of_fades h'.2 h'.1.fades, h'.1.fades⟩

/-- An eviction may take pages from anybody. -/
theorem grows_kallocOrEvict (me : ProcId) (s : Kernel) :
    wp Benign kallocOrEvict (fun _ s' => Grows me s s' ∧ Fades s s') s :=
  grows_of_tended (wp_kallocOrEvict.mono fun _ _ h => h.1) spaces_kallocOrEvict me

/-- The page at `va`, not mapped so far, is mapped or cannot be. -/
theorem wp_mapFault {pa perm : Nat} (h : Faulting me root va s) (hV : isV (s.pte root va) = false) :
    wp Benign (mappages root va pgsize pa perm) (fun _ => Grows me s) s := by
  have hva : va < trapframeVa := h.low.trans_le h.size
  have hpage : va >>> 12 < pagesOf (s.proc me).sz := by
    grind [h.low, pagesOf, Nat.shiftRight_eq_div_pow]
  refine ((wp_mappages h.align (hva.trans (by decide)) h.live hV).and_ok
    fun _ _ _ hrun => spaces_beside (beside_mappages _ _ _ _ _) hrun).mono fun r s' h' => ?_
  obtain ⟨⟨hext, ⟨-, hl⟩ | ⟨-, hl⟩⟩, hsp⟩ := h'
  · exact .map hsp h.table hpage hext hl
  · refine .map (v := va >>> 12) (w := s.pte root va) hsp h.table hpage hext ?_
    rw [hl]
    exact (update_eq_self ..).symm

/-- Giving the page back after a failure. -/
theorem wp_giveBack {α : Type} (pa : Nat) (a : α) :
    wp Benign (do kfree pa; return a) (fun _ => Grows me s) s :=
  .bind (grows_of_tended ((calm_kfree pa).mono Calm.tended s)
    (spaces_beside (beside_kfree pa)) me) fun _ _ h => .pure h.1

/-- One part after another. -/
theorem Grows.before {α : Type} {x : K α} {s1 : Kernel} (hg : Grows me s s1)
    (h : wp Benign x (fun _ => Grows me s1) s1) : wp Benign x (fun _ => Grows me s) s1 :=
  h.mono fun _ _ h' => hg.trans h'

/-- Statistics change. -/
theorem Grows.count {p : ProcId} {f : Proc → Proc}
    (hf : ∀ q, (f q).space = q.space) : Grows me s (s.updProc p f) :=
  .of_fades (spaces_updProc hf) (.of_tables rfl)

theorem Grows.register (p : ProcId) (va pa : Nat) : Grows me s (s.registered p va pa) := by
  obtain ⟨frames, heq⟩ := s.registered_shape p va pa
  rw [heq]
  exact .of_fades rfl (.of_tables rfl)

theorem isV_false_of_fades {s' : Kernel} (h : Fades s s')
    (hV : isV (s.pte root va) = false) : isV (s'.pte root va) = false := by
  by_contra hV'
  rw [Bool.not_eq_false] at hV'
  exact absurd ((h.leaf root (va >>> 12) hV').symm.trans hV) nofun

/-- A page comes back where none was. -/
theorem wp_swapPageIn (h : Faulting me root va s) (hV : isV (s.pte root va) = false) :
    wp Benign (swapPageIn me va) (fun _ => Grows me s) s := by
  refine .get_bind ?_
  cases s.swapSlotOf me va with
  | none => exact .pure (.refl me s)
  | some slot =>
    refine .bind (grows_kallocOrEvict me s) fun r s1 h1 => ?_
    cases r with
    | none => exact .pure h1.1
    | some newPa =>
      refine .bind (grows_of_tended ((calm_submitRequest _ _ _ _).mono Calm.tended s1)
        (spaces_submitRequest ..) me) fun r s2 h2 => ?_
      have hg := h1.1.trans h2.1
      refine .ite (fun _ => hg.before (wp_giveBack ..)) fun _ => ?_
      refine .modify_bind ?_
      have hclear : ∀ e, Grows me s2 (s2.setSwap slot e) := fun _ => .of_fades rfl (.of_tables rfl)
      have hg3 := hg.trans (hclear { s2.swapDiskTable slot with
          inUse := false, owner := none, vaddr := 0, logicalBlock := -1 })
      have hf3 := h.grows hg3
      refine wp_pagetableOf hf3.table (.bind (wp_mapFault hf3 ?_) fun r s4 h4 => ?_)
      · have hV2 := isV_false_of_fades (h1.2.trans h2.2) hV
        exact hV2
      have hg4 := hg3.trans h4
      refine .ite (fun _ => hg4.before (wp_giveBack ..)) fun _ => ?_
      exact .modify_bind (.modify_bind (.pure
        ((hg4.trans (.register ..)).trans (.count fun _ => rfl))))

/-- A zeroed page comes where none was. -/
theorem wp_mapFresh (h : Faulting me root va s)
    (hV : isV (s.pte root va) = false) (r : Option Nat) :
    wp Benign (mapFresh me va r) (fun _ => Grows me s) s := by
  cases r with
  | none => exact .pure (.refl me s)
  | some mem =>
    refine .modify_bind ?_
    have hg : Grows me s (s.memset mem 0) := .of_fades rfl (.of_tables rfl)
    have hf := h.grows hg
    refine wp_pagetableOf hf.table (.bind (wp_mapFault hf hV) fun r s1 h1 => ?_)
    have hg1 := hg.trans h1
    refine .ite (fun _ => hg1.before (wp_giveBack ..)) fun _ => ?_
    exact .modify_bind (.modify_bind (.pure
      ((hg1.trans (.register ..)).trans (.count fun _ => rfl))))

theorem wp_faultOrTouch (h : Faulting me root va s) :
    wp Benign (faultOrTouch me root va) (fun _ => Grows me s) s := by
  have hmapped : wp Benign (ismapped root va) (fun b s' => s' = s ∧ b = isV (s.pte root va)) s := by
    refine .bind wp_look fun b s1 hb => ?_
    obtain ⟨rfl, rfl⟩ := hb
    refine .ite (fun _ => .get_bind (.pure ⟨rfl, rfl⟩)) fun hmid => .pure ⟨rfl, ?_⟩
    rw [pte_of_mid_none (Option.not_isSome_iff_eq_none.mp hmid)]
    rfl
  refine .bind hmapped fun b s1 hb => ?_
  obtain ⟨rfl, rfl⟩ := hb
  refine .ite (fun hV => .modify_bind (.pure (.of_fades rfl
    ⟨fun r => by rw [Kernel.setLeaf_live], fun r v hV' => ?_⟩))) fun hV => ?_
  · -- the accessed bit does not make a page valid
    rcases s1.setLeaf_leaf_cases root va (s1.pte root va ||| pteA) r v with
      heq | ⟨rfl, rfl, -⟩
    · rwa [heq] at hV'
    · exact hV
  · have hcount : Grows me s1 (s1.updProc me fun q => { q with pageFaults := q.pageFaults + 1 }) :=
      .count fun _ => rfl
    refine .modify_bind (.bind (grows_kallocOrEvict me _) fun r s2 h2 => ?_)
    have hg := hcount.trans h2.1
    refine hg.before (wp_mapFresh (h.grows hg) (isV_false_of_fades h2.2 ?_) r)
    exact Bool.eq_false_iff.mpr hV

/-- A fault adds entries to one table, below the size. -/
theorem wp_vmfault (hpt : (s.proc me).pagetable = some root)
    (hlive : (s.pagetables root).live = true) (hsz : (s.proc me).sz ≤ trapframeVa) :
    wp Benign (vmfault me root va) (fun _ => Grows me s) s := by
  refine .get_bind (.ite (fun _ => .pure (.refl me s)) fun hva => ?_)
  have h : Faulting me root (pgrounddown va) s := by
    refine ⟨hpt, hlive, ?_, ?_, hsz⟩
    · unfold pgrounddown
      exact Nat.mul_mod_left ..
    · grind [pgrounddown]
  refine .bind wp_look fun b s1 hb => ?_
  obtain ⟨rfl, -⟩ := hb
  refine .get_bind (.ite (fun hc => ?_) fun _ => wp_faultOrTouch h)
  refine .bind (wp_swapPageIn h (by simpa using hc.2.1)) fun r s2 h2 => ?_
  exact .ite (fun _ => .modify_bind (.pure (h2.trans (.count fun _ => rfl))))
    fun _ => h2.before (wp_faultOrTouch (h.grows h2))

-- ======== user copies

/-- A look at a page of the user. -/
theorem wp_peek : wp Benign (walkaddr root va) (fun _ s' => s' = s) s := by
  refine .ite (fun _ => .pure rfl) fun _ => .bind wp_look fun b s1 hb => ?_
  obtain ⟨rfl, -⟩ := hb
  exact .ite (fun _ => .get_bind (.ite (fun _ => .pure rfl) fun _ => .pure rfl)) fun _ => .pure rfl

/-- The running process, as its copies see it. -/
structure Mapped (me : ProcId) (root : Nat) (s : Kernel) : Prop where
  table : (s.proc me).pagetable = some root
  live : (s.pagetables root).live = true
  size : (s.proc me).sz ≤ trapframeVa

theorem Mapped.grows {s' : Kernel} (h : Mapped me root s)
    (hg : Grows me s s') : Mapped me root s' := by
  obtain ⟨hpt, hsz, -⟩ := spaces_eq hg.spaces me
  exact ⟨hpt.trans h.table, (hg.live root).trans h.live, hsz.symm ▸ h.size⟩

/-- User copies do what their faults do. -/
theorem wp_copyoutLoop (fuel : Nat) : ∀ {dstva : Nat} {src : List UInt8}
    {s : Kernel}, Mapped me root s →
    wp Benign (copyoutLoop me root fuel dstva src) (fun _ => Grows me s) s := by
  induction fuel with
  | zero => intro dstva src s _; exact .pure (.refl me s)
  | succ fuel ih =>
    intro dstva src s h
    refine .ite (fun _ => .pure (.refl me s)) fun _ =>
      .ite (fun _ => .pure (.refl me s)) fun _ =>
      .bind wp_peek fun pa s1 hs => ?_
    subst hs
    -- the page is there, or is faulted in
    refine .ite_bind (fun _ => wp_vmfault h.table h.live h.size)
      (fun _ => .pure (.refl me s1)) fun pa s2 hg => ?_
    refine .ite (fun _ => .pure hg) fun _ => .bind wp_look fun b s3 hb => ?_
    obtain ⟨rfl, -⟩ := hb
    refine .ite (fun _ => .get_bind (.ite (fun _ => ?_) fun _ => .pure hg))
      fun _ => .fault (by decide)
    refine .modify_bind ?_
    have hwrite : ∀ a b bs, Grows me s3 (s3.writeBytes a b bs) :=
      fun _ _ _ => .of_fades rfl (.of_tables rfl)
    have hg' := hg.trans (hwrite pa (dstva - pgrounddown dstva)
      (src.take (pgsize - (dstva - pgrounddown dstva))))
    exact hg'.before (ih (h.grows hg'))

theorem wp_copyout (h : Mapped me root s) (dstva : Nat) (src : List UInt8) :
    wp Benign (copyout me root dstva src) (fun _ => Grows me s) s :=
  wp_copyoutLoop _ h

theorem wp_copyinLoop (fuel : Nat) : ∀ {srcva len : Nat} {s : Kernel}, Mapped me root s →
    wp Benign (copyinLoop me root fuel srcva len) (fun _ => Grows me s) s := by
  induction fuel with
  | zero => intro srcva len s _; exact .pure (.refl me s)
  | succ fuel ih =>
    intro srcva len s h
    refine .ite (fun _ => .pure (.refl me s)) fun _ => .bind wp_peek fun pa s1 hs => ?_
    subst hs
    refine .ite_bind (fun _ => wp_vmfault h.table h.live h.size)
      (fun _ => .pure (.refl me s1)) fun pa s2 hg => ?_
    refine .ite (fun _ => .pure hg) fun _ => .get_bind ?_
    refine .bind (hg.before (ih (h.grows hg))) fun r s3 hg' => ?_
    cases r <;> exact .pure hg'

theorem wp_copyin (h : Mapped me root s) (srcva len : Nat) :
    wp Benign (copyin me root srcva len) (fun _ => Grows me s) s :=
  wp_copyinLoop _ h

end faults

end GemOS
