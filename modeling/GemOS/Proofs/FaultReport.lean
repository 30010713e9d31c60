/-
What `vmfault` reports.

A fault on a page that is in swap goes wrong when all goes well: once
`swap_page_in` has mapped the page, `vmfault` returns 0, which its callers
take for a failure. If `swap_page_in` fails, `vmfault` goes on as if the
page had never been there, and says truly what it did.

When a swap-in succeeds is told from the state before: the page has a
slot, the RAID mapping takes its block, and where nobody else allocates
or frees, two pages are free, one for the page and one for the request.
-/
import GemOS.Proofs.Faults
import GemOS.Proofs.SwapTrip

namespace GemOS

open Function Prog

/-- The page of a fault: not valid in the table of the process. -/
structure Aimed (me : ProcId) (root va : Nat) (s : Kernel) : Prop where
  table : (s.proc me).pagetable = some root
  live : (s.pagetables root).live = true
  align : va % pgsize = 0
  bound : va < maxva
  invalid : isV (s.pte root va) = false

section

variable {me : ProcId} {root va : Nat} {s s' : Kernel}

theorem Aimed.tended (h : Aimed me root va s) (ht : Tended s s') : Aimed me root va s' :=
  ⟨(ht.pagetable me).trans h.table, (ht.live root).trans h.live, h.align, h.bound,
    isV_false_of_fades ht.fades h.invalid⟩

/-- The page has a slot, with a block that the RAID mapping takes. -/
def InSwap (me : ProcId) (va : Nat) (s : Kernel) : Prop :=
  ∃ slot, s.swapSlotOf me va = some slot
    ∧ (raidMapLogicalToPhysical s.raidMode (s.swapDiskTable slot).logicalBlock).isSome

-- ======== the swap-in

/-- A request is made if the RAID mapping takes the block and, for a
caller alone, a page is free. -/
theorem submitRequest_made {type : DiskOp} {block : Int} {buffer : Nat} {p : Option ProcId}
    {r : Int} {t : Notes Mark Kernel} (h : submitRequest type block buffer p s = .ok (r, s', t)) :
    (r = 0 ∧ (raidMapLogicalToPhysical s.raidMode block).isSome ∧ (s.env = [] → s.freelist ≠ []))
      ∨ (r = -1 ∧ (s.env = [] → s'.env = [] ∧ s'.freelist = s.freelist
        ∧ ((raidMapLogicalToPhysical s.raidMode block).isSome → s.freelist = []))) := by
  cases submitRequest_cases h with
  | dry hfree =>
    refine .inr ⟨rfl, fun henv => ?_⟩
    rw [s.interfered_of_env_nil henv] at hfree ⊢
    exact ⟨henv, rfl, fun _ => hfree⟩
  | refused hfree hnone =>
    refine .inr ⟨rfl, fun henv => ?_⟩
    rw [s.interfered_of_env_nil henv] at hfree ⊢
    exact ⟨henv, hfree.symm, fun hplace => by rw [hnone] at hplace; cases hplace⟩
  | queued hfree hplace _ =>
    refine .inl ⟨rfl, by rw [hplace]; rfl, fun henv => ?_⟩
    rw [← s.interfered_of_env_nil henv, hfree]
    exact List.cons_ne_nil _ _

/-- How `swap_page_in` ends. -/
inductive SwapInEnd (me : ProcId) (root va : Nat) (s : Kernel) : Int → Kernel → Prop
  | restored {s' : Kernel} : isV (s'.pte root va) = true → InSwap me va s →
      (s.env = [] → 2 ≤ s.freelist.length) → SwapInEnd me root va s 0 s'
  | failed {s' : Kernel} : Tended s s' →
      (s.env = [] → ¬ (InSwap me va s ∧ 2 ≤ s.freelist.length)
        ∧ (s.freelist = [] → s' = s ∨ s.Evictable)
        ∧ (s.freelist ≠ [] → s'.env = [] ∧ s'.freelist ≠ [])) →
      SwapInEnd me root va s (-1) s'

/-- Registration and statistics leave the PTEs. -/
theorem pte_registered {pa va' : Nat} {f : Proc → Proc} :
    ((s.registered me va' pa).updProc me f).pte root va = s.pte root va := by
  obtain ⟨frames, heq⟩ := s.registered_shape me va' pa
  rw [heq]
  rfl

/-- A page is mapped there: the level-0 table exists. -/
theorem wp_mapAt {E : Fault → Prop} {α : Type} {pa : Nat} {no yes : K α} {Q : α → Kernel → Prop}
    (h : Aimed me root va s) (hmid : ((s.pagetables root).mid (va >>> 21)).isSome)
    (hyes : wp E yes Q (s.setLeaf root va (pa2pte pa ||| (pteW ||| pteU ||| pteR) ||| pteV))) :
    wp E (do
      let root ← pagetableOf me
      if (← mappages root va pgsize pa (pteW ||| pteU ||| pteR)) ≠ 0 then no
      else yes) Q s := by
  have hrun := mappages_run pa (pteW ||| pteU ||| pteR) h.align h.bound h.live hmid h.invalid
  refine wp_pagetableOf h.table (.bind (.of_ok hrun (Q := fun r s' => r = 0 ∧ _ = s') ⟨rfl, rfl⟩)
    fun r s' hr => ?_)
  obtain ⟨rfl, rfl⟩ := hr
  exact .ite (fun hne => (hne rfl).elim) fun _ => hyes

theorem wp_swapPageIn_end (h : Aimed me root va s)
    (hmid : ((s.pagetables root).mid (va >>> 21)).isSome) :
    wp Benign (swapPageIn me va) (SwapInEnd me root va s) s := by
  refine .get_bind ?_
  cases hslot : s.swapSlotOf me va with
  | none =>
    refine .pure (.failed (.refl s) fun henv => ⟨?_, fun _ => .inl rfl, fun hne => ⟨henv, hne⟩⟩)
    rintro ⟨⟨slot, hsome, -⟩, -⟩
    cases hslot.symm.trans hsome
  | some slot =>
    have hin : InSwap me va s
        ↔ (raidMapLogicalToPhysical s.raidMode (s.swapDiskTable slot).logicalBlock).isSome := by
      unfold InSwap
      simp only [hslot, Option.some.injEq, exists_eq_left']
    refine .bind (wp_kallocOrEvict.and_ok fun r s1 t hrun (henv : s.env = []) =>
      (kallocOrEvict_alone henv hrun).2) fun r s1 h1 => ?_
    obtain ⟨⟨htend, -⟩, halone⟩ := h1
    cases r with
    | none =>
      refine .pure (.failed htend fun henv => ?_)
      obtain ⟨hnil, -, hev⟩ | ⟨_, _, -, hsome, -⟩ := halone henv
      · rw [hnil]
        exact ⟨fun h => absurd h.2 (by decide), fun _ => .inr hev, fun hne => (hne rfl).elim⟩
      · cases hsome
    | some pa =>
      have hpop : s.env = [] → ∃ rest, s.freelist = pa :: rest ∧ s1.freelist = rest
          ∧ s1.env = [] := by
        intro henv
        obtain ⟨-, hno, -⟩ | ⟨_, rest, hfree, hsome, rfl⟩ := halone henv
        · cases hno
        · cases hsome
          exact ⟨rest, hfree, rfl, henv⟩
      refine .bind ((calm_submitRequest _ _ _ _ s1).and_ok fun r s2 t hrun =>
        submitRequest_made hrun) fun r s2 h2 => ?_
      rw [htend.mode, ← hin] at h2
      obtain ⟨hcalm, ⟨rfl, hraid, hmore⟩ | ⟨rfl, hless⟩⟩ := h2
      · -- once the request is made, the rest succeeds
        refine .ite (fun hne => (hne rfl).elim) fun _ => .modify_bind ?_
        have ht : Tended s (s2.clearedAt slot) :=
          (htend.trans hcalm.tended).trans (.of_eq rfl fun _ => rfl)
        have hmid' : (((s2.clearedAt slot).pagetables root).mid (va >>> 21)).isSome := by
          rw [ht.mid]
          exact hmid
        refine wp_mapAt (h.tended ht) hmid' (.modify_bind (.modify_bind (.pure ?_)))
        refine .restored ?_ hraid fun henv => ?_
        · rw [pte_registered]
          exact (congrArg isV (pte_setLeaf_self _ hmid')).trans (isV_or_pteV _)
        · obtain ⟨rest, hfree, hrest, henv1⟩ := hpop henv
          rw [hfree]
          have := List.length_pos_iff.mpr (hmore henv1)
          rw [hrest] at this
          exact Nat.succ_le_succ this
      · refine .ite (fun _ => .bind ((calm_kfree pa s2).and_ok fun _ _ _ hrun => (kfree_ok hrun).1)
          fun _ s3 h3 => .pure ?_) fun hne => (hne (by decide)).elim
        obtain ⟨hcalm', rfl⟩ := h3
        refine .failed ((htend.trans hcalm.tended).trans hcalm'.tended) fun henv => ?_
        obtain ⟨rest, hfree, hrest, henv1⟩ := hpop henv
        obtain ⟨henv2, -, hnone⟩ := hless henv1
        rw [hfree]
        refine ⟨fun h => ?_, nofun, fun _ => ⟨henv2, List.cons_ne_nil _ _⟩⟩
        rw [← hrest, hnone h.1] at h
        exact absurd h.2 (by simp)

-- ======== the report

/-- The value says what was done: 0 that the page is not mapped, another
that it is, at that address. -/
def Reported (root va r : Nat) (s : Kernel) : Prop :=
  (isV (s.pte root va) = true → r ≠ 0 ∧ r = pte2pa (s.pte root va))
    ∧ (r = 0 → isV (s.pte root va) = false)

theorem Reported.unmapped (h : isV (s.pte root va) = false) : Reported root va 0 s :=
  ⟨fun hV => absurd (h.symm.trans hV) (by decide), fun _ => h⟩

theorem ramPage_ne_zero {pa : Nat} (h : RamPage pa) : pa ≠ 0 := by
  have := h.2.1
  simp only [kernbase] at this
  omega

/-- The page that was found is mapped, or given back where a table for it
cannot be had. -/
theorem wp_mapFresh_reported {mem : Nat} (h : Aimed me root va s) (hram : RamPage mem) :
    wp Benign (mapFresh me va (some mem)) (fun r s' => Reported root va r s'
      ∧ (((s.pagetables root).mid (va >>> 21)).isSome → r ≠ 0)) s := by
  refine .modify_bind ?_
  have ha : Aimed me root va (s.memset mem 0) := h.tended (.of_eq rfl fun _ => rfl)
  have hmapped : ∀ r s1 t, mappages root va pgsize mem (pteW ||| pteU ||| pteR) (s.memset mem 0)
      = .ok (r, s1, t) → ((s.pagetables root).mid (va >>> 21)).isSome → r = 0 := by
    intro r s1 t hrun hmid
    rw [mappages_run _ _ ha.align ha.bound ha.live hmid ha.invalid] at hrun
    exact (Prod.mk.inj (Except.ok.inj hrun)).1.symm
  refine wp_pagetableOf ha.table (.bind ((wp_mappages ha.align ha.bound ha.live
    ha.invalid).and_ok hmapped) fun r s1 h1 => ?_)
  obtain ⟨⟨-, ⟨rfl, hleaf⟩ | ⟨rfl, hleaf⟩⟩, hmapped⟩ := h1
  · refine .ite (fun hne => (hne rfl).elim) fun _ => .modify_bind (.modify_bind (.pure ?_))
    have hne := ramPage_ne_zero hram
    refine ⟨⟨fun _ => ⟨hne, ?_⟩, fun hz => (hne hz).elim⟩, fun _ => hne⟩
    rw [pte_registered, Kernel.pte, hleaf, update_self, pte2pa_mapped hram.1 hram.2.2 (by decide)]
  · refine .ite (fun _ => .bind (calm_kfree mem s1) fun _ s2 h2 => .pure ⟨.unmapped ?_, fun hmid =>
      absurd (hmapped hmid) (by decide)⟩) fun hne => (hne (by decide)).elim
    unfold Kernel.pte
    rw [h2.untouched.tables, hleaf]
    exact ha.invalid

/-- The page is not mapped. -/
theorem wp_ismapped_aimed (h : Aimed me root va s) :
    wp Benign (ismapped root va) (fun b s' => b = false ∧ s' = s) s := by
  refine .bind wp_look fun b s1 hb => ?_
  obtain ⟨rfl, -⟩ := hb
  exact .ite (fun _ => .get_bind (.pure ⟨h.invalid, rfl⟩)) fun _ => .pure ⟨rfl, rfl⟩

theorem wp_faultOrTouch_reported (h : Aimed me root va s) (hs : RamStock s) :
    wp Benign (faultOrTouch me root va) (Reported root va) s := by
  refine .bind (wp_ismapped_aimed h) fun b s1 hb => ?_
  obtain ⟨rfl, rfl⟩ := hb
  refine .ite nofun fun _ => .modify_bind ?_
  have hcount : Calm s1 (s1.updProc me fun q => { q with pageFaults := q.pageFaults + 1 }) :=
    .count me fun _ => rfl
  refine .bind wp_kallocOrEvict fun r s2 h2 => ?_
  have ha := h.tended (hcount.tended.trans h2.1)
  cases r with
  | none => exact .pure (.unmapped ha.invalid)
  | some mem =>
    have hram := h2.2 mem rfl (hcount.tended.stocked hs)
    exact (wp_mapFresh_reported ha hram).mono fun _ _ h => h.1

-- ======== the fault

theorem pte_pgrounddown (s : Kernel) (root va : Nat) :
    s.pte root (pgrounddown va) = s.pte root va := by
  unfold Kernel.pte pgrounddown
  simp only [Nat.shiftRight_eq_div_pow, pgsize]
  rw [show va / 4096 * 4096 / 2 ^ 12 = va / 2 ^ 12 by omega]

/-- A process, and a page below its size that is not valid. -/
theorem Mapped.aimed (hm : Mapped me root s) (hva : va < (s.proc me).sz)
    (hV : isV (s.pte root va) = false) : Aimed me root (pgrounddown va) s := by
  refine ⟨hm.table, hm.live, Nat.mul_mod_left .., ?_, ?_⟩
  · grind [hm.size, Nat.div_mul_le_self, pgrounddown]
  · rw [pte_pgrounddown]
    exact hV

/-- A PTE that is not zero has a table around it. -/
theorem mid_of_ne_zero (hpte : s.pte root va ≠ 0) :
    ((s.pagetables root).mid (pgrounddown va >>> 21)).isSome := by
  rw [← pte_pgrounddown] at hpte
  exact Option.isSome_iff_ne_none.mpr fun hm => hpte (pte_of_mid_none hm)

/-- A fault on a page in swap. -/
theorem vmfault_swapped (hm : Mapped me root s) (hva : va < (s.proc me).sz)
    (hV : isV (s.pte root va) = false) (hpte : s.pte root va ≠ 0) : vmfault me root va s = (do
      if (← swapPageIn me (pgrounddown va)) = 0 then
        countFault me
        return 0
      else faultOrTouch me root (pgrounddown va) : K Nat) s := by
  have ha := hm.aimed hva hV
  unfold vmfault
  rw [get_bind_run, if_neg (Nat.not_le.mpr hva)]
  dsimp only
  rw [bind_run_quiet (walk_found false ha.bound ha.live (mid_of_ne_zero hpte)), get_bind_run,
    if_pos]
  refine ⟨rfl, ?_, ?_⟩
  · rw [ha.invalid]
    exact Bool.false_ne_true
  · rw [pte_pgrounddown]
    exact hpte

/-- A fault on a page that was never there. -/
theorem wp_vmfault_lazy (hs : RamStock s) (hm : Mapped me root s) (hva : va < (s.proc me).sz)
    (hpte : s.pte root va = 0) :
    wp Benign (vmfault me root va) (Reported root (pgrounddown va)) s := by
  have ha : Aimed me root (pgrounddown va) s := hm.aimed hva (by rw [hpte]; rfl)
  refine .get_bind (.ite (fun hsz => (Nat.not_le.mpr hva hsz).elim) fun _ => ?_)
  refine .bind wp_look fun b s1 hb => ?_
  obtain ⟨rfl, -⟩ := hb
  refine .get_bind (.ite (fun hc => ?_) fun _ => wp_faultOrTouch_reported ha hs)
  rw [pte_pgrounddown] at hc
  exact (hc.2.2 hpte).elim

/-- A fault on a page that is not valid reports what it did, unless the
page is in swap and can be read from there. Where nobody else allocates
or frees, that is the whole exception: it fails to report exactly when two
pages are free as well. -/
theorem vmfault_reports_iff {r : Nat} {t : Notes Mark Kernel} (hs : RamStock s)
    (hm : Mapped me root s) (hva : va < (s.proc me).sz) (hV : isV (s.pte root va) = false)
    (hrun : vmfault me root va s = .ok (r, s', t)) :
    (¬ (s.pte root va ≠ 0 ∧ InSwap me (pgrounddown va) s) → Reported root va r s')
      ∧ (s.env = [] → (Reported root va r s' ↔ ¬ (s.pte root va ≠ 0
        ∧ InSwap me (pgrounddown va) s ∧ 2 ≤ s.freelist.length))) := by
  have ha := hm.aimed hva hV
  have hpage : Reported root va r s' ↔ Reported root (pgrounddown va) r s' := by
    unfold Reported
    rw [pte_pgrounddown]
  rw [hpage]
  by_cases hpte : s.pte root va = 0
  · have hrep := (wp_vmfault_lazy hs hm hva hpte).ok hrun
    exact ⟨fun _ => hrep, fun _ => iff_of_true hrep fun h => h.1 hpte⟩
  rw [vmfault_swapped hm hva hV hpte] at hrun
  obtain ⟨r1, s1, t1, t2, hin, hrest, -⟩ := bind_ok hrun
  cases (wp_swapPageIn_end ha (mid_of_ne_zero hpte)).ok hin with
  | failed htend halone =>
    have hrep := (wp_faultOrTouch_reported (ha.tended htend) (htend.stocked hs)).ok hrest
    exact ⟨fun _ => hrep, fun henv => iff_of_true hrep fun h => (halone henv).1 h.2⟩
  | restored hvalid hswap htwo =>
    -- the page is mapped, and the value is 0
    cases hrest
    have hno : ¬ Reported root (pgrounddown va) 0 _ := fun hrep =>
      absurd ((hrep.2 rfl).symm.trans hvalid) (by decide)
    exact ⟨fun h => (h ⟨hpte, hswap⟩).elim, fun henv =>
      iff_of_false hno fun h => h ⟨hpte, hswap, htwo henv⟩⟩

end

set_option maxRecDepth 20000 in
/-- A fault on a page that was never there: the address of the page is
returned. -/
theorem vmfault_reports_lazy : ∃ s' t, vmfault 0 0x80021000 0 sevens = .ok (0x80030000, s', t)
    ∧ Reported 0x80021000 0 0x80030000 s' := by
  have hm : Mapped 0 0x80021000 sevens := ⟨rfl, rfl, by decide⟩
  exact ⟨_, _, rfl, (vmfault_reports_iff ⟨by decide, by decide⟩ hm (by decide) rfl
    rfl).1 fun h => h.1 rfl⟩

/-- A page in swap, of a process that is not the first one. -/
def restorable : Kernel := { swappedOut sevens with initproc := 1 }

set_option maxRecDepth 20000 in
/-- The page in swap is restored and valid again, `vmfault` returns 0, and
`usertrap` kills the process. -/
theorem vmfault_hides_success : RamStock restorable ∧ Mapped 0 0x80021000 restorable
      ∧ 0x1000 < (restorable.proc 0).sz
      ∧ isV (restorable.pte 0x80021000 0x1000) = false
      ∧ (∃ s' t, vmfault 0 0x80021000 0x1000 restorable = .ok (0, s', t)
          ∧ isV (s'.pte 0x80021000 0x1000) = true)
      ∧ ∃ s' t, usertrapFault 0 0x1000 restorable = .ok ((), s', t)
        ∧ (s'.proc 0).killed = true ∧ (s'.proc 0).state = .zombie :=
  ⟨⟨by decide, by decide⟩, ⟨rfl, rfl, by decide⟩, by decide, rfl, ⟨_, _, rfl, rfl⟩,
    ⟨_, _, rfl, rfl, rfl⟩⟩

end GemOS
