/-
The life of a page table, without a fault: it is created with its two
fixed mappings (`procPagetable`), and torn down once its user pages are
gone (`procFreepagetable`). Around it, the life of a process slot:
`allocproc` and `freeproc`.

A table can be torn down only if every valid leaf is a fixed mapping or
lies below the size given (`Bounded`); this is what keeps `freewalk`
from panicking.
-/
import GemOS.Proofs.KeptProc
import GemOS.Proofs.TableWork

namespace GemOS

open Function Prog

/-- Every valid leaf but the two fixed ones lies below `sz`, rounded
up. -/
def Bounded (sz : Nat) (l : Nat → Nat) : Prop :=
  ∀ v, isV (l v) = true → v < pagesOf sz ∨ v = userPages ∨ v = userPages + 1

variable {E : Fault → Prop} {k : Nat} {F : Nat → Prop} {s : Kernel} {root : Nat}

/-- A process that has a table. -/
theorem wp_pagetableOf {α : Type} {p : ProcId} {f : Nat → K α}
    {Q : α → Kernel → Prop} (hp : (s.proc p).pagetable = some root)
    (h : wp E (f root) Q s) : wp E (pagetableOf p >>= f) Q s := by
  refine .bind (.get_bind ?_) fun r s' (hr : r = root ∧ s' = s) => ?_
  · rw [hp]
    exact .pure ⟨rfl, rfl⟩
  · obtain ⟨rfl, rfl⟩ := hr
    exact h

-- ======== freeing

/-- The table at `root` was freed. -/
structure Freed (root : Nat) (s s' : Kernel) : Prop where
  beside : s'.beside = s.beside
  free : s.freelist <:+ s'.freelist
  others : ∀ r, r ≠ root → s'.pagetables r = s.pagetables r

theorem wp_kfreeAll (root : Nat) (hF : Takes E k F) (l : List Nat) : ∀ {s : Kernel},
    s.kend = k → (∀ pa ∈ l, F pa) → wp E (kfreeAll l) (fun _ s' => Releases root s s') s := by
  induction l with
  | nil => intro s _ _; exact .pure (.refl ..)
  | cons pa rest ih =>
    intro s hk hl
    refine .bind (wp_kfree hF hk (hl pa (List.mem_cons_self ..))) fun _ s1 h => ?_
    subst h
    exact (ih (s := s.push pa) hk fun b hb =>
      hl b (List.mem_cons_of_mem _ hb)).mono
      fun _ s' h => (Releases.push ..).trans h

theorem anyLeaf_false {t : PageTable} {f : Nat → Bool}
    (h : ∀ v, f (t.leaf v) = false) : t.anyLeaf f = false := by
  unfold PageTable.anyLeaf
  refine List.any_eq_false.mpr fun i _ => ?_
  rw [Bool.and_eq_true, not_and]
  intro _
  rw [Bool.not_eq_true]
  refine List.any_eq_false.mpr fun j _ => ?_
  rw [Bool.and_eq_true, not_and]
  intro _
  rw [Bool.not_eq_true]
  refine List.any_eq_false.mpr fun v _ => ?_
  rw [h]
  exact nofun

section

variable (hF : Takes E k F)

include hF

/-- A table without valid leaves is freed. -/
theorem wp_freewalk (hk : s.kend = k) (ht : (s.pagetables root).Good F root)
    (hnone : ∀ v, isV ((s.pagetables root).leaf v) = false) :
    wp E (freewalk root) (fun _ s' => Freed root s s') s := by
  have hrwx : (s.pagetables root).anyLeaf (fun w =>
      isV w && w &&& (pteR ||| pteW ||| pteX) != 0) = false :=
    anyLeaf_false fun v => by rw [hnone, Bool.false_and]
  unfold freewalk
  refine .get_bind ?_
  simp only [ht.live, hrwx, anyLeaf_false hnone, Bool.not_true, Bool.false_eq_true, if_false]
  have hpages : ∀ pa ∈ (s.pagetables root).pages root, pa = root
      ∨ (∃ i, (s.pagetables root).dir i = some pa)
      ∨ ∃ j, (s.pagetables root).mid j = some pa := fun _ => mem_pages
  generalize (s.pagetables root).pages root = l at hpages ⊢
  refine .bind (wp_kfreeAll root hF l hk fun pa hpa => ?_)
    fun _ s1 h => .modify ⟨h.beside, h.free, fun r hr => ?_⟩
  · grind [ht.root, ht.dir, ht.mid]
  · exact (update_of_ne hr ..).trans (h.others r hr)

/-- The user pages below `sz`, then the table. -/
theorem wp_uvmfree {sz : Nat} (hsz : sz ≤ trapframeVa)
    (hk : s.kend = k) (ht : (s.pagetables root).Good F root)
    (hb : ∀ v, isV ((s.pagetables root).leaf v) = true → v < pagesOf sz) :
    wp E (uvmfree root sz) (fun _ s' => Freed root s s'
      ∧ ∀ v, isV ((s.pagetables root).leaf v) = true →
        pte2pa ((s.pagetables root).leaf v) ∈ s'.freelist) s := by
  have hpages : pgroundup sz / pgsize = pagesOf sz := by
    rw [pgroundup_pagesOf hsz]
    exact Nat.mul_div_cancel _ (by decide)
  refine .ite (fun _ => ?_) fun hzero => ?_
  · have hend : 0 + pgroundup sz / pgsize * pgsize ≤ trapframeVa := by
      have := Nat.div_mul_le_self (pgroundup sz) pgsize
      have := (pgroundup_le hsz).1
      omega
    refine .bind (wp_uvmunmap hF (by decide) (hend.trans (by decide))
      (fun _ => hend) hk ht) fun _ s1 h => ?_
    rw [hpages, show (0 : Nat) >>> 12 = 0 from rfl] at h
    have hk1 : s1.kend = k := (kend_of_beside h.beside).trans hk
    refine (wp_freewalk hF hk1 (h.good ht) fun v => ?_).mono fun _ s' h' => ?_
    · by_contra hV
      rw [h.leaf] at hV
      obtain ⟨-, hV', hout⟩ := cleared_valid (by simpa using hV)
      have := hb v hV'
      omega
    · refine ⟨⟨h'.beside.trans h.beside, h.free.trans h'.free, fun r hr =>
        (h'.others r hr).trans (h.others r hr)⟩, fun v hV => ?_⟩
      have := hb v hV
      exact h'.free.subset (h.freed rfl v (by omega) (by omega) hV)
  · have hnone : ∀ v, isV ((s.pagetables root).leaf v) = false := by
      intro v
      by_contra hV
      have := hb v (by simpa using hV)
      obtain rfl : sz = 0 := by omega
      simp only [pagesOf, pgsize] at this
      omega
    refine (wp_freewalk hF hk ht hnone).mono fun _ s' h => ⟨h, fun v hV => ?_⟩
    rw [hnone v] at hV
    cases hV

/-- A fixed mapping goes, its page does not. -/
theorem wp_unmapFixed {va : Nat} (hva : va = trampolineVa ∨ va = trapframeVa) (hk : s.kend = k)
    (ht : (s.pagetables root).Good F root) :
    wp E (uvmunmap root va 1 false) (fun _ s' => Unmapped k F root (va >>> 12) 1 false s s') s := by
  refine wp_uvmunmap hF ?_ ?_ nofun hk ht
  · rcases hva with rfl | rfl <;> decide
  · rcases hva with rfl | rfl <;> decide

omit hF in
theorem trampoline_vpn : trampolineVa >>> 12 = userPages + 1 := by decide

omit hF in
theorem trapframe_vpn : trapframeVa >>> 12 = userPages := by decide

/-- Tearing a bounded table down frees every user page of it. -/
theorem wp_procFreepagetable {sz : Nat}
    (hsz : sz ≤ trapframeVa) (hk : s.kend = k) (ht : (s.pagetables root).Good F root)
    (hb : Bounded sz (s.pagetables root).leaf) :
    wp E (procFreepagetable root sz) (fun _ s' => Freed root s s'
      ∧ ∀ v < userPages, isV ((s.pagetables root).leaf v) = true →
        pte2pa ((s.pagetables root).leaf v) ∈ s'.freelist) s := by
  refine .bind (wp_unmapFixed hF (.inl rfl) hk ht) fun _ s1 h1 => ?_
  have hk1 : s1.kend = k := (kend_of_beside h1.beside).trans hk
  refine .bind (wp_unmapFixed hF (.inr rfl) hk1 (h1.good ht)) fun _ s2 h2 => ?_
  have hk2 : s2.kend = k := (kend_of_beside h2.beside).trans hk1
  have hrel := h1.toReleases.trans h2.toReleases
  have hleaf : (s2.pagetables root).leaf
      = cleared (cleared (s.pagetables root).leaf (userPages + 1) 1) userPages 1 := by
    rw [h2.leaf, h1.leaf, trampoline_vpn, trapframe_vpn]
  have hsame : ∀ v < userPages, (s2.pagetables root).leaf v = (s.pagetables root).leaf v := by
    intro v hv
    rw [hleaf]
    unfold cleared
    rw [if_neg fun h => by omega, if_neg fun h => by omega]
  refine (wp_uvmfree hF hsz hk2 (h2.good (h1.good ht)) fun v hV => ?_).mono fun _ s' h => ?_
  · rw [hleaf] at hV
    obtain ⟨-, hV1, hv1⟩ := cleared_valid hV
    obtain ⟨-, hV0, hv0⟩ := cleared_valid hV1
    have := hb v hV0
    omega
  · obtain ⟨h, hfreed⟩ := h
    refine ⟨⟨h.beside.trans hrel.beside, hrel.free.trans h.free, fun r hr =>
      (h.others r hr).trans (hrel.others r hr)⟩, fun v hv hV => ?_⟩
    have heq := hsame v hv
    rw [← heq] at hV ⊢
    exact hfreed v hV

-- ======== processes

/-- Slot `p` has nothing in it. -/
def Kernel.Vacant (s : Kernel) (p : ProcId) : Prop :=
  (s.proc p).state = .unused ∧ (s.proc p).pagetable = none ∧ (s.proc p).sz = 0

/-- What `freeproc` has done to slot `p`. -/
structure Reaped (p : ProcId) (s s' : Kernel) : Prop where
  slot : s'.Vacant p
  procs : ∀ q, q ≠ p → s'.proc q = s.proc q
  others : ∀ r, (s.proc p).pagetable ≠ some r → s'.pagetables r = s.pagetables r
  freed : ∀ root, (s.proc p).pagetable = some root → ∀ v < userPages,
    isV ((s.pagetables root).leaf v) = true →
    pte2pa ((s.pagetables root).leaf v) ∈ s'.freelist

theorem wp_freeproc {p : ProcId} (hk : s.kend = k)
    (htf : ∀ tf, (s.proc p).trapframe = some tf → F tf) (hsz : (s.proc p).sz ≤ trapframeVa)
    (hpt : ∀ root, (s.proc p).pagetable = some root → (s.pagetables root).Good F root
        ∧ Bounded (s.proc p).sz (s.pagetables root).leaf) :
    wp E (freeproc p) (fun _ s' => Reaped p s s') s := by
  -- the slot is emptied last
  have hclear : ∀ s2 : Kernel, (∀ q, q ≠ p → s2.proc q = s.proc q) →
      (∀ q, q ≠ p → (s2.updProc p Proc.cleared).proc q = s.proc q)
      ∧ (s2.updProc p Proc.cleared).Vacant p := by
    intro s2 h
    refine ⟨fun q hq => ?_, ?_⟩
    · rw [s2.updProc_of_ne _ hq, h q hq]
    · rw [Kernel.Vacant, s2.updProc_self]
      exact ⟨rfl, rfl, rfl⟩
  have hrest : ∀ {rest : K Unit} {s1 : Kernel}, ((s.proc p).pagetable = none →
      rest = (modify fun s => s.updProc p Proc.cleared : K Unit)) →
      (∀ root, (s.proc p).pagetable = some root → rest = do
        procFreepagetable root (s.proc p).sz
        modify fun s => s.updProc p Proc.cleared) →
      s1.pagetables = s.pagetables → s1.kend = k → (∀ q, q ≠ p → s1.proc q = s.proc q) →
      wp E rest (fun _ s' => Reaped p s s') s1 := by
    intro rest s1 hnone hsome htab hk1 hprocs
    cases hroot : (s.proc p).pagetable with
    | none =>
      rw [hnone hroot]
      obtain ⟨hq, hslot⟩ := hclear s1 hprocs
      refine .modify ⟨hslot, hq, fun r _ => congrFun htab r, fun r hr => ?_⟩
      rw [hroot] at hr
      cases hr
    | some root =>
      rw [hsome root hroot]
      obtain ⟨ht, hb⟩ := hpt root hroot
      rw [← htab] at ht hb
      refine .bind (wp_procFreepagetable hF hsz hk1 ht hb) fun _ s2 h => ?_
      obtain ⟨h, hfreed⟩ := h
      have hproc := proc_of_beside h.beside
      obtain ⟨hq, hslot⟩ := hclear s2 fun q hq => by rw [hproc, hprocs q hq]
      refine .modify ⟨hslot, hq, fun r hr => ?_, fun r hr v hv hV => ?_⟩
      · rw [← htab]
        refine h.others r fun heq => hr ?_
        rw [heq, hroot]
      · obtain rfl : root = r := Option.some.inj (hroot.symm.trans hr)
        rw [← htab] at hV ⊢
        exact hfreed v hv hV
  refine .note_bind (.get_bind ?_)
  cases htf' : (s.proc p).trapframe with
  | none =>
    exact .modify_bind (hrest (fun h => by rw [h]) (fun root h => by rw [h]) rfl hk
      fun q hq => s.updProc_of_ne _ hq)
  | some tf =>
    refine .bind (wp_kfree hF hk (htf tf htf')) fun _ s1 h => ?_
    subst h
    exact .modify_bind (hrest (fun h => by rw [h]) (fun root h => by rw [h]) rfl hk
      fun q hq => (s.push tf).updProc_of_ne _ hq)

-- ======== creation

/-- What `procPagetable` leaves: a new table from a free page, with
nothing but its two fixed mappings, or no table. -/
inductive Built (k : Nat) (F : Nat → Prop) (s : Kernel) : Option Nat → Kernel → Prop
  | table {root : Nat} {s' : Kernel} : root ∈ s.avail →
      Worked k F root s s' → s'.avail.Subperm s.avail →
      (s.avail.Nodup → root ∉ s'.avail) →
      (∀ pa, pa ∉ s.avail → s'.mem pa = s.mem pa) →
      (∀ v < userPages, (s'.pagetables root).leaf v = 0) →
      Bounded 0 (s'.pagetables root).leaf →
      Built k F s (some root) s'
  | none {s' : Kernel} : s'.beside = s.beside →
      (∀ r, r ∉ s.avail → s'.pagetables r = s.pagetables r) →
      Built k F s none s'

theorem wp_procPagetable (p : ProcId) (hs : Stock k F s) :
    wp E (procPagetable p) (Built k F s) s := by
  refine .bind (M := fun r s2 => (r = none ∧ Built k F s none s2)
    ∨ ∃ root, r = some root ∧ root ∈ s.avail ∧ Worked k F root s s2
      ∧ s2.avail.Subperm s.avail ∧ (s.avail.Nodup → root ∉ s2.avail)
      ∧ (∀ pa, pa ∉ s.avail → s2.mem pa = s.mem pa)
      ∧ s2.pagetables root = .empty) ?_ fun r s2 h => ?_
  · refine .bind (wp_kalloc 0) fun r s1 h => ?_
    obtain ⟨hext, hpt, hp⟩ := h
    cases r with
    | none => exact .pure (.inl ⟨rfl, .none hext.beside fun r _ => congrFun hpt r⟩)
    | some root =>
      obtain ⟨hroot, -, hnd⟩ := mem_avail_of_perm hp
      have hs1 := hext.stock hs
      have hFroot := hs.avail root hroot
      refine .modify_bind (.pure (.inr ⟨root, rfl, hroot, ⟨hext.beside,
        fun r hr => (update_of_ne hr ..).trans (congrFun hpt r),
        ⟨hs1.kend, hs1.avail⟩, ?_⟩, hext.avail, hnd, fun pa hpa => ?_, Kernel.setTable_self ..⟩))
      · rw [Kernel.setTable_self]
        exact ⟨rfl, hFroot, nofun, nofun, fun v _ hV => absurd (isV_zero.symm.trans hV) nofun⟩
      · exact (hext.write hroot (fill 0)).mem pa hpa
  rcases h with ⟨rfl, hnone⟩ | ⟨root, rfl, hroot, w, hsub, hnd, hmem, hempty⟩
  · exact .pure hnone
  have hl2 : (s2.pagetables root).leaf = fun _ => 0 := by
    rw [hempty]
    rfl
  -- giving up: whatever has become of the table, it is freed
  have hfail : ∀ s3 : Kernel, s3.beside = s2.beside →
      (∀ r, r ≠ root → s3.pagetables r = s2.pagetables r) → (s3.pagetables root).Good F root →
      (∀ v, isV ((s3.pagetables root).leaf v) = false) →
      wp E (do uvmfree root 0; return none) (Built k F s) s3 := by
    intro s3 hbeside hothers ht hno
    have hk : s3.kend = k := (kend_of_beside hbeside).trans w.stock.kend
    refine .bind (wp_uvmfree hF (Nat.zero_le _) hk ht fun v hV => ?_)
      fun _ s' h => .pure (.none ?_ fun r hr => ?_)
    · rw [hno v] at hV
      cases hV
    · exact h.1.beside.trans (hbeside.trans w.beside)
    · have hne : r ≠ root := fun heq => hr (heq ▸ hroot)
      rw [h.1.others r hne, hothers r hne, w.others r hne]
  refine .get_bind ?_
  refine .bind (wp_mappages (by decide) (by decide) w.good.live
    (by unfold Kernel.pte; rw [hl2]; rfl)) fun r s3 h => ?_
  obtain ⟨hext3, hcase⟩ := h
  refine .ite (fun hr => ?_) fun hr => ?_
  · obtain ⟨-, hl⟩ := hcase.resolve_left fun h => by omega
    rw [hl2] at hl
    refine hfail s3 hext3.beside hext3.others (hext3.good w.stock w.good ?_) ?_
    · rw [hl]
      exact fun v _ hV => absurd (isV_zero.symm.trans hV) nofun
    · rw [hl]
      exact fun _ => isV_zero
  obtain ⟨-, hl⟩ := hcase.resolve_right fun h => by omega
  rw [hl2, trampoline_vpn] at hl
  have hgood3 : (s3.pagetables root).Good F root := by
    refine hext3.good w.stock w.good fun v hv hV => ?_
    rw [hl, update_of_ne (by omega)] at hV
    cases hV
  refine .bind (wp_mappages (by decide) (by decide) hgood3.live ?_) fun r s4 h => ?_
  · unfold Kernel.pte
    rw [trapframe_vpn, hl, update_of_ne (by omega)]
    rfl
  obtain ⟨hext4, hcase⟩ := h
  have hext := hext3.trans hext4
  refine .ite (fun hr => ?_) fun hr => .pure ?_
  · obtain ⟨-, hl4⟩ := hcase.resolve_left fun h => by omega
    rw [hl] at hl4
    have hgood4 : (s4.pagetables root).Good F root := by
      refine hext.good w.stock w.good fun v hv hV => ?_
      rw [hl4, update_of_ne (by omega)] at hV
      cases hV
    refine .bind (wp_unmapFixed hF (.inl rfl) (hext.stock w.stock).kend hgood4) fun _ s5 h5 => ?_
    refine hfail s5 (h5.beside.trans hext.beside) (fun r hr =>
      (h5.others r hr).trans (hext.others r hr)) (h5.good hgood4) fun v => ?_
    by_contra hV
    rw [h5.leaf, trampoline_vpn] at hV
    obtain ⟨-, hV', hout⟩ := cleared_valid (by simpa using hV)
    rw [hl4, update_of_ne (by omega)] at hV'
    cases hV'
  · obtain ⟨-, hl4⟩ := hcase.resolve_right fun h => by omega
    rw [hl, trapframe_vpn] at hl4
    have hzero : ∀ v < userPages, (s4.pagetables root).leaf v = 0 := by
      intro v hv
      rw [hl4, update_of_ne (by omega), update_of_ne (by omega)]
    refine .table hroot ⟨hext.beside.trans w.beside, fun r hr =>
      (hext.others r hr).trans (w.others r hr), hext.stock w.stock,
      hext.good w.stock w.good fun v hv hV => ?_⟩
      (hext.avail.trans hsub) (fun h hin => hnd h (hext.avail.subset hin))
      (fun pa hpa => ?_) hzero fun v hV => ?_
    · rw [hzero v hv] at hV
      cases hV
    · rw [hext.mem pa fun hin => hpa (hsub.subset hin), hmem pa hpa]
    · by_contra hout
      rw [hl4, update_of_ne (by omega), update_of_ne (by omega)] at hV
      cases hV

/-- A slot claimed by `allocproc`, with its new table. -/
structure NewSlot (k : Nat) (F : Nat → Prop) (s : Kernel) (p : ProcId)
    (root tf : Nat) (s' : Kernel) : Prop where
  unused : (s.proc p).state = .unused
  procs : ∀ q, q ≠ p → s'.proc q = s.proc q
  table : (s'.proc p).pagetable = some root
  trapframe : (s'.proc p).trapframe = some tf
  sz : (s'.proc p).sz = 0
  fresh : root ∈ s.avail ∧ tf ∈ s.avail
  others : ∀ r, r ≠ root → s'.pagetables r = s.pagetables r
  stock : Stock k F s'
  good : (s'.pagetables root).Good F root
  avail : s'.avail.Subperm s.avail
  taken : s.avail.Nodup → root ∉ s'.avail ∧ tf ∉ s'.avail
  mem : ∀ pa, pa ∉ s.avail → s'.mem pa = s.mem pa
  empty : ∀ v < userPages, (s'.pagetables root).leaf v = 0
  bounded : Bounded 0 (s'.pagetables root).leaf

/-- Everybody is as before, but for a free slot that was tried and is free
again. -/
def GivenUp (s s' : Kernel) : Prop :=
  s'.proc = s.proc ∨ ∃ p, (s.proc p).state = .unused ∧ s'.Vacant p
    ∧ ∀ q, q ≠ p → s'.proc q = s.proc q

/-- The outcomes of `allocproc`. -/
inductive Claimed (k : Nat) (F : Nat → Prop) (s : Kernel) : Option ProcId → Kernel → Prop
  | slot {p : ProcId} {root tf : Nat} {s' : Kernel} :
      NewSlot k F s p root tf s' → Claimed k F s (some p) s'
  | none {s' : Kernel} :
      GivenUp s s' → (∀ r, r ∉ s.avail → s'.pagetables r = s.pagetables r) →
      Claimed k F s none s'

/-- On failure the slot is given back. -/
theorem wp_giveUp {p : ProcId} {s1 : Kernel} (hst : (s.proc p).state = .unused) (hk : s1.kend = k)
    (hprocs : ∀ q, q ≠ p → s1.proc q = s.proc q)
    (hslot : (s1.proc p).pagetable = none ∧ (s1.proc p).sz = 0)
    (htf : ∀ tf, (s1.proc p).trapframe = some tf → F tf)
    (htab : ∀ r, r ∉ s.avail → s1.pagetables r = s.pagetables r) :
    wp E (do freeproc p; return none) (Claimed k F s) s1 := by
  refine .bind (wp_freeproc hF hk htf (by rw [hslot.2]; exact Nat.zero_le _)
    fun root hroot => ?_) fun _ s' h => .pure (.none (.inr ⟨p, hst, h.slot, fun q hq => ?_⟩)
      fun r hr => ?_)
  · rw [hslot.1] at hroot
    cases hroot
  · rw [h.procs q hq, hprocs q hq]
  · rw [h.others r (by rw [hslot.1]; exact nofun), htab r hr]

end

/-- Slot `p` is being set up: it has its trapframe page, if there was one,
and no table yet. -/
structure Claiming (k : Nat) (F : Nat → Prop) (s : Kernel) (p : ProcId) (tf : Option Nat)
    (s' : Kernel) : Prop where
  procs : ∀ q, q ≠ p → s'.proc q = s.proc q
  slot : (s'.proc p).pagetable = none ∧ (s'.proc p).sz = 0 ∧ (s'.proc p).trapframe = tf
  tables : s'.pagetables = s.pagetables
  stock : Stock k F s'
  avail : s'.avail.Subperm s.avail
  mem : ∀ pa, pa ∉ s.avail → s'.mem pa = s.mem pa
  taken : ∀ pa, tf = some pa → pa ∈ s.avail ∧ (s.avail.Nodup → pa ∉ s'.avail)

theorem Claiming.start {p : ProcId} (hs : Stock k F s) (hslot : (s.proc p).pagetable = none
      ∧ (s.proc p).trapframe = none ∧ (s.proc p).sz = 0) :
    Claiming k F s p none { s.updProc p fun q => q.claimed s.nextpid with
      nextpid := s.nextpid + 1 } := by
  obtain ⟨hpt, htf, hsz⟩ := hslot
  refine ⟨fun q hq => s.updProc_of_ne (·.claimed s.nextpid) hq, ?_, rfl,
    ⟨hs.kend, hs.avail⟩, .refl _, fun _ _ => rfl, nofun⟩
  dsimp only
  rw [s.updProc_self]
  exact ⟨hpt, hsz, htf⟩

theorem Claiming.kalloc {p : ProcId} {s1 : Kernel} (hc : Claiming k F s p none s1) :
    wp E kalloc (fun tf s2 =>
      Claiming k F s p tf (s2.updProc p fun q => { q with trapframe := tf })) s1 := by
  refine (wp_kalloc 0).mono fun tf s2 h => ?_
  obtain ⟨hext, hpt, hp⟩ := h
  have hproc := proc_of_beside hext.beside
  have hstock := hext.stock hc.stock
  refine ⟨fun q hq => ?_, ?_, hpt.trans hc.tables, ⟨hstock.kend, hstock.avail⟩,
    hext.avail.trans hc.avail, fun pa hpa => ?_, ?_⟩
  · rw [s2.updProc_of_ne _ hq, hproc, hc.procs q hq]
  · rw [s2.updProc_self, hproc]
    exact ⟨hc.slot.1, hc.slot.2.1, rfl⟩
  · exact (hext.mem pa fun hin => hpa (hc.avail.subset hin)).trans (hc.mem pa hpa)
  · rintro pa rfl
    obtain ⟨hin, -, hnd⟩ := mem_avail_of_perm hp
    exact ⟨hc.avail.subset hin, fun h => hnd (nodup_of_subperm hc.avail h)⟩

/-- With a table the slot is complete. -/
theorem Claiming.attach {p : ProcId} {s1 s2 : Kernel} {tf : Nat}
    (hst : (s.proc p).state = .unused) (hc : Claiming k F s p (some tf) s1)
    (h : Built k F s1 (some root) s2) :
    NewSlot k F s p root tf (s2.updProc p fun q => { q with pagetable := some root }) := by
  cases h with
  | table hroot w hsub hnd hmem hzero hb =>
    obtain ⟨htf, htfnd⟩ := hc.taken tf rfl
    have hproc := proc_of_beside w.beside
    have hself := s2.updProc_self p fun q => { q with pagetable := some root }
    refine ⟨hst, fun q hq => ?_, by rw [hself], ?_, ?_, ⟨hc.avail.subset hroot, htf⟩,
      fun r hr => (w.others r hr).trans (congrFun hc.tables r), ⟨w.stock.kend, w.stock.avail⟩,
      w.good, hsub.trans hc.avail, fun hall => ⟨hnd (nodup_of_subperm hc.avail hall),
        fun hin => htfnd hall (hsub.subset hin)⟩, fun pa hpa => ?_, hzero, hb⟩
    · rw [s2.updProc_of_ne _ hq, hproc, hc.procs q hq]
    · rw [hself, hproc]
      exact hc.slot.2.2
    · rw [hself, hproc]
      exact hc.slot.2.1
    · exact (hmem pa fun hin => hpa (hc.avail.subset hin)).trans (hc.mem pa hpa)

theorem wp_allocproc (hF : Takes E k F) (hs : Stock k F s)
    (hunused : ∀ p, (s.proc p).state = .unused →
      (s.proc p).pagetable = none ∧ (s.proc p).trapframe = none ∧ (s.proc p).sz = 0) :
    wp E allocproc (Claimed k F s) s := by
  refine .get_bind ?_
  cases hslot : s.unusedSlot with
  | none => exact .pure (.none (.inl rfl) fun _ _ => rfl)
  | some p =>
    have hst := unusedSlot_spec hslot
    refine .modify_bind (.bind (Claiming.start hs (hunused p hst)).kalloc
      fun tf s1 hc => .modify_bind ?_)
    generalize (s1.updProc p fun q => { q with trapframe := tf }) = s2 at hc ⊢
    cases tf with
    | none =>
      refine wp_giveUp hF hst hc.stock.kend hc.procs ⟨hc.slot.1, hc.slot.2.1⟩ ?_
        fun r _ => congrFun hc.tables r
      rw [hc.slot.2.2]
      exact nofun
    | some tf =>
      refine .bind (wp_procPagetable hF p hc.stock) fun r s3 h => .modify_bind ?_
      cases r with
      | none =>
        obtain ⟨hbeside, htab⟩ : s3.beside = s2.beside
            ∧ ∀ r, r ∉ s2.avail → s3.pagetables r = s2.pagetables r := by
          cases h with
          | none hbeside htab => exact ⟨hbeside, htab⟩
        have hproc := proc_of_beside hbeside
        refine wp_giveUp hF hst ((kend_of_beside hbeside).trans hc.stock.kend)
          (fun q hq => ?_) ?_ ?_ fun r hr => ?_
        · rw [s3.updProc_of_ne _ hq, hproc, hc.procs q hq]
        · rw [s3.updProc_self, hproc]
          exact ⟨rfl, hc.slot.2.1⟩
        · rw [s3.updProc_self, hproc]
          rintro _ htf
          cases hc.slot.2.2.symm.trans htf
          exact hs.avail tf (hc.taken tf rfl).1
        · exact (htab r fun hin => hr (hc.avail.subset hin)).trans (congrFun hc.tables r)
      | some root => exact .pure (.slot (hc.attach hst h))

end GemOS
