/-
What `fork` copies.

`uvmcopy` walks the parent's table and, for every valid leaf, maps a
fresh page with the same flags and the same bytes in the child's table;
where the parent has no valid leaf the child gets none (`Copied`). A
failure on the way leaves the child without user pages.
-/
import GemOS.Proofs.TableLife

namespace GemOS

open Function Prog

variable {E : Fault → Prop} {k : Nat} {F : Nat → Prop}

/-- The leaves `l'` of the copy: for each valid leaf of `l0` from page
`lo` on, `n` of them, a page that was free in `s` and in `s'` holds what
the original held; everything else is as in `l`. -/
def CopiedLeaves (l0 l : Nat → Nat) (lo n : Nat) (s s' : Kernel) (l' : Nat → Nat) : Prop :=
  ∀ v, (lo ≤ v → v < lo + n → isV (l0 v) = true →
      ∃ pa ∈ s.avail, l' v = pa2pte pa ||| pteFlags (l0 v) ||| pteV
        ∧ (s.avail.Nodup → pte2pa (l0 v) ∉ s.avail → s'.mem pa = s.mem (pte2pa (l0 v))))
    ∧ (v < lo ∨ lo + n ≤ v ∨ isV (l0 v) = false → l' v = l v)

/-- The outcomes of `uvmcopy`, from page `lo` on. -/
inductive Copied (k : Nat) (F : Nat → Prop) (old new lo n : Nat) (s : Kernel) : Int → Kernel → Prop
  | all {s' : Kernel} : Extends new s s' → Worked k F new s s' →
      CopiedLeaves (s.pagetables old).leaf (s.pagetables new).leaf lo n s s'
        (s'.pagetables new).leaf →
      Copied k F old new lo n s 0 s'
  | none {s' : Kernel} : Worked k F new s s' →
      CutAt 0 (s.pagetables new).leaf (s'.pagetables new).leaf →
      Copied k F old new lo n s (-1) s'

variable {lo n new old sz : Nat} {r : Int} {s s' : Kernel}

/-- A page without a valid leaf is skipped. -/
theorem Copied.skip (hV : isV ((s.pagetables old).leaf lo) = false)
    (h : Copied k F old new (lo + 1) n s r s') : Copied k F old new lo (n + 1) s r s' := by
  cases h with
  | none w hcut => exact .none w hcut
  | all hext w hc =>
    refine .all hext w fun v => ⟨fun hlo hhi hv => ?_, fun hv => ?_⟩
    · have hne : v ≠ lo := by
        rintro rfl
        rw [hV] at hv
        cases hv
      exact (hc v).1 (by omega) (by omega) hv
    · exact (hc v).2 (hv.imp (fun h => by omega) (.imp_left fun h => by omega))

/-- One page copied, then the rest. -/
theorem Copied.step {pa : Nat} {s2 : Kernel} (hne : old ≠ new)
    (hlo : lo < userPages) (hext : Extends new s s2) (hpa : pa ∈ s.avail)
    (htaken : s.avail.Nodup → pa ∉ s2.avail) (hV : isV ((s.pagetables old).leaf lo) = true)
    (hmem : s.avail.Nodup → pte2pa ((s.pagetables old).leaf lo) ∉ s.avail →
      s2.mem pa = s.mem (pte2pa ((s.pagetables old).leaf lo)))
    (hleaf : (s2.pagetables new).leaf = update (s.pagetables new).leaf lo
          (pa2pte pa ||| pteFlags ((s.pagetables old).leaf lo) ||| pteV))
    (h : Copied k F old new (lo + 1) n s2 r s') :
    Copied k F old new lo (n + 1) s r s' := by
  have hold : (s2.pagetables old).leaf = (s.pagetables old).leaf := by
    rw [hext.others old hne]
  have hworked : Worked k F new s2 s' → Worked k F new s s' := fun w =>
    ⟨w.beside.trans hext.beside, fun r hr => (w.others r hr).trans
      (hext.others r hr), w.stock, w.good⟩
  cases h with
  | none w hcut =>
    refine .none (hworked w) ⟨hcut.1, fun v hv => ?_⟩
    rw [hcut.2 v hv, hleaf, update_of_ne (by omega)]
  | all hext' w hc =>
    rw [hold] at hc
    refine .all (hext.trans hext') (hworked w) fun v => ⟨fun hv hhi hVv => ?_, fun hv => ?_⟩
    · by_cases hvl : v = lo
      · subst hvl
        refine ⟨pa, hpa, ?_, fun hnd hsrc => ?_⟩
        · rw [(hc v).2 (by omega), hleaf, update_self]
        · rw [hext'.mem pa (htaken hnd), hmem hnd hsrc]
      · obtain ⟨b, hb, heq, hbmem⟩ := (hc v).1 (by omega) (by omega) hVv
        refine ⟨b, hext.avail.subset hb, heq, fun hnd hsrc => ?_⟩
        rw [hbmem (nodup_of_subperm hext.avail hnd)
          fun hin => hsrc (hext.avail.subset hin), hext.mem _ hsrc]
    · have hvl : v ≠ lo := by
        rintro rfl
        rcases hv with hv | hv | hv
        · omega
        · omega
        · rw [hV] at hv
          cases hv
      have hv' : v < lo + 1 ∨ lo + 1 + n ≤ v ∨ isV ((s.pagetables old).leaf v) = false :=
        hv.imp (fun h => by omega) (.imp_left fun h => by omega)
      rw [(hc v).2 hv', hleaf, update_of_ne hvl]

/-- A copy that cannot go on is undone. -/
theorem wp_uncopy (hF : Takes E k F) {i : Nat} {s1 : Kernel} (hi : i ≤ trapframeVa)
    (hnone : NoneFrom (i >>> 12) (s.pagetables new).leaf) (hbeside : s1.beside = s.beside)
    (hothers : ∀ r, r ≠ new → s1.pagetables r = s.pagetables r)
    (hstock : Stock k F s1) (ht : (s1.pagetables new).Good F new)
    (hleaf : (s1.pagetables new).leaf = (s.pagetables new).leaf) :
    wp E (do uvmunmap new 0 (i / pgsize) true; return -1) (fun r s' => r = -1 ∧ Worked k F new s s'
      ∧ CutAt 0 (s.pagetables new).leaf (s'.pagetables new).leaf) s1 := by
  have hend : 0 + i / pgsize * pgsize ≤ trapframeVa := by
    have := Nat.div_mul_le_self i pgsize
    omega
  have hcount : 0 + i / pgsize = i >>> 12 := by
    rw [Nat.zero_add, Nat.shiftRight_eq_div_pow]
  refine .bind (wp_uvmunmap hF (by decide) (hend.trans (by decide))
    (fun _ => hend) hstock.kend ht) fun _ s' h => ?_
  have hl := h.leaf
  rw [hleaf, show (0 : Nat) >>> 12 = 0 from rfl] at hl
  refine .pure ⟨rfl, ⟨h.beside.trans hbeside, fun r hr => (h.others r hr).trans
    (hothers r hr), h.stock hstock, h.good ht⟩, fun v _ hv => ?_, fun v hv => ?_⟩
  · rw [hl]
    by_contra hV
    obtain ⟨-, hV', hout⟩ := cleared_valid (by simpa using hV)
    rw [hcount] at hout
    exact absurd (hnone v (by omega) hv) (by rw [hV']; exact nofun)
  · rw [hl]
    refine if_neg fun h => ?_
    rw [hcount] at h
    have := vpn_le hi
    omega

theorem wp_uvmcopyLoop (hF : Takes E k F) (hne : old ≠ new) (n : Nat) :
    ∀ {i : Nat} {s : Kernel}, i % pgsize = 0 → i + n * pgsize ≤ trapframeVa → Stock k F s →
    (s.pagetables old).live = true → (s.pagetables new).Good F new →
    NoneFrom (i >>> 12) (s.pagetables new).leaf →
    wp E (uvmcopyLoop old new n i) (Copied k F old new (i >>> 12) n s) s := by
  induction n with
  | zero =>
    intro i s _ _ hs _ ht _
    exact .pure (.all (.refl ..) ⟨rfl, fun _ _ => rfl, hs, ht⟩ fun v =>
      ⟨fun _ _ => by omega, fun _ => rfl⟩)
  | succ n ih =>
    intro i s halign hend hs hlive ht hnone
    have hnext : (i + pgsize) >>> 12 = i >>> 12 + 1 := by
      simp only [Nat.shiftRight_eq_div_pow, pgsize]
      omega
    have hi : i < trapframeVa := by
      simp only [pgsize] at hend
      omega
    have halign' : (i + pgsize) % pgsize = 0 := by
      rw [Nat.add_mod_right]
      exact halign
    have hend' : i + pgsize + n * pgsize ≤ trapframeVa := by
      simp only [pgsize] at *
      omega
    have hskip : isV (s.pte old i) = false → wp E (uvmcopyLoop old new n (i + pgsize))
        (Copied k F old new (i >>> 12) (n + 1) s) s := by
      intro hV
      refine (ih halign' hend' hs hlive ht ?_).mono fun r s' h => ?_
      · rw [hnext]
        exact fun v hv => hnone v (by omega)
      · rw [hnext] at h
        exact h.skip hV
    refine .bind (wp_lookup (hi.trans (by decide)) hlive) fun b s1 h => ?_
    obtain ⟨rfl, rfl⟩ := h
    refine .ite (fun _ => .get_bind (.ite (fun hV => ?_) fun hV =>
      hskip (by simpa using hV))) fun hmid => hskip ?_
    · refine .bind (wp_kalloc new) fun r s2 h => ?_
      obtain ⟨hext, hpt, hp⟩ := h
      have hl2 : (s2.pagetables new).leaf = (s1.pagetables new).leaf := by
        rw [hpt]
      cases r with
      | none =>
        refine (wp_uncopy hF hi.le hnone hext.beside hext.others
          (hext.stock hs) (by rw [hpt]; exact ht) hl2).mono ?_
        rintro r s' ⟨rfl, w, hcut⟩
        exact .none w hcut
      | some mem =>
        obtain ⟨hmem, -, htaken⟩ := mem_avail_of_perm hp
        have hcopy := hext.write hmem (s2.mem (pte2pa (s1.pte old i)))
        have hpte : isV ((s2.copyPage mem (pte2pa (s1.pte old i))).pte new i) = false := by
          show isV ((s2.pagetables new).leaf (i >>> 12)) = false
          rw [hl2]
          exact hnone _ le_rfl (vpn_lt hi)
        refine .modify_bind (.bind (wp_mappages halign (hi.trans (by decide))
          ?_ hpte) fun r s3 h => ?_)
        · exact (congrArg PageTable.live (congrFun hpt new)).trans ht.live
        obtain ⟨hmap, hcase⟩ := h
        have hext3 := hcopy.trans hmap
        have hl1 : ((s2.copyPage mem (pte2pa (s1.pte old i))).pagetables
            new).leaf = (s1.pagetables new).leaf := hl2
        refine .ite (fun hr => ?_) fun hr => ?_
        · obtain ⟨-, hl⟩ := hcase.resolve_left fun h => hr h.1
          rw [hl1] at hl
          have ht3 := hext3.good hs ht (by rw [hl]; exact ht.leaf)
          refine .bind (wp_kfree hF (hext3.stock hs).kend (hs.avail mem hmem)) fun _ s4 h => ?_
          subst h
          have hbeside : (s3.push mem).beside = s1.beside := hext3.beside
          refine (wp_uncopy hF hi.le hnone hbeside hext3.others
            ((hext3.stock hs).push (hs.avail mem hmem)) ht3 hl).mono ?_
          rintro r s' ⟨rfl, w, hcut⟩
          exact .none w hcut
        · obtain ⟨-, hl⟩ := hcase.resolve_right fun h => by omega
          rw [hl1] at hl
          have ht3 := hext3.good hs ht (good_update ht
            (hF.word mem _ (hs.avail mem hmem) (pteFlags_lt _)) hl)
          have hlive3 : (s3.pagetables old).live = true := by
            rw [hext3.others old hne]
            exact hlive
          refine (ih halign' hend' (hext3.stock hs) hlive3 ht3 ?_).mono fun r s' h => ?_
          · intro v hv hvu
            rw [hnext] at hv
            rw [hl, update_of_ne (by omega)]
            exact hnone v (by omega) hvu
          · rw [hnext] at h
            refine h.step hne (vpn_lt hi) hext3 hmem (fun hnd hin => ?_) hV (fun hnd hsrc => ?_) hl
            · exact htaken hnd (hmap.avail.subset hin)
            · rw [hmap.mem mem (htaken hnd)]
              show update s2.mem mem _ mem = _
              rw [update_self]
              exact hext.mem _ hsrc
    · rw [pte_of_mid_none (Option.not_isSome_iff_eq_none.mp hmid)]
      rfl

theorem wp_uvmcopy (hF : Takes E k F) (hne : old ≠ new) (hsz : sz ≤ trapframeVa)
    (hs : Stock k F s) (hlive : (s.pagetables old).live = true) (ht : (s.pagetables new).Good F new)
    (hnone : NoneFrom 0 (s.pagetables new).leaf) :
    wp E (uvmcopy old new sz) (Copied k F old new 0 (pagesOf sz) s) s := by
  refine wp_uvmcopyLoop hF hne _ (by decide) ?_ hs hlive ht hnone
  simp only [trapframeVa, trampolineVa, maxva, pgsize] at *
  omega

-- ======== fork

/-- The child of a `fork` of process `me`, whose table is at `old`: the
new slot `np`, with its table at `root`. -/
structure Child (s : Kernel) (me np : ProcId) (old root : Nat) (s' : Kernel) : Prop where
  unused : (s.proc np).state = .unused
  procs : ∀ q, q ≠ np → s'.proc q = s.proc q
  table : (s'.proc np).pagetable = some root
  sz : (s'.proc np).sz = (s.proc me).sz
  fresh : root ∈ s.avail
  others : ∀ r, r ≠ root → s'.pagetables r = s.pagetables r
  mem : ∀ pa, pa ∉ s.avail → s'.mem pa = s.mem pa
  copied : ∀ v < pagesOf (s.proc me).sz, isV ((s.pagetables old).leaf v) = true →
    ∃ pa ∈ s.avail, (s'.pagetables root).leaf v
        = pa2pte pa ||| pteFlags ((s.pagetables old).leaf v) ||| pteV
      ∧ s'.mem pa = s.mem (pte2pa ((s.pagetables old).leaf v))
  empty : ∀ v < userPages, pagesOf (s.proc me).sz ≤ v ∨ isV ((s.pagetables old).leaf v) = false →
    (s'.pagetables root).leaf v = 0
  bounded : Bounded (s.proc me).sz (s'.pagetables root).leaf

/-- The outcomes of `kfork`. -/
inductive Forked (s : Kernel) (me : ProcId) (old : Nat) : Int → Kernel → Prop
  | child {np : ProcId} {root : Nat} {s' : Kernel} :
      Child s me np old root s' → Forked s me old (s'.proc np).pid s'
  | none {s' : Kernel} :
      GivenUp s s' → (∀ r, r ∉ s.avail → s'.pagetables r = s.pagetables r) →
      Forked s me old (-1) s'

theorem pagesOf_le (h : sz ≤ trapframeVa) : pagesOf sz ≤ userPages := by
  unfold pagesOf
  simp only [trapframeVa, trampolineVa, maxva, pgsize, userPages] at *
  omega

/-- The end of `kfork`: size, trapframe, parent and state of the child. -/
def Kernel.forked (s : Kernel) (me np : ProcId) : Kernel :=
  let s := s.updProc np fun q => { q with sz := (s.proc me).sz }
  let s := s.copyTrapframe (s.trapframePa np) (s.trapframePa me)
  s.updProc np fun q => { q with parent := some me, state := .runnable }

theorem Kernel.forked_spec (me : ProcId) {np : ProcId} {tf : Nat}
    (htf : (s.proc np).trapframe = some tf) : (∀ q, q ≠ np → (s.forked me np).proc q = s.proc q)
      ∧ ((s.forked me np).proc np).pagetable = (s.proc np).pagetable
      ∧ ((s.forked me np).proc np).sz = (s.proc me).sz
      ∧ ∀ pa, pa ≠ tf → (s.forked me np).mem pa = s.mem pa := by
  have hsz := s.updProc_self np fun q => { q with sz := (s.proc me).sz }
  unfold Kernel.forked
  dsimp only
  generalize hs1 : (s.updProc np fun q => { q with sz := (s.proc me).sz }) = s1 at hsz ⊢
  have htf1 : s1.trapframePa np = tf := by
    unfold Kernel.trapframePa
    rw [hsz, htf]
    rfl
  have hself := (s1.copyTrapframe (s1.trapframePa np) (s1.trapframePa me)).updProc_self np fun q =>
      { q with parent := some me, state := .runnable }
  refine ⟨fun q hq => ?_, ?_, ?_, fun pa hpa => ?_⟩
  · rw [Kernel.updProc_of_ne _ _ hq]
    show s1.proc q = s.proc q
    rw [← hs1, s.updProc_of_ne _ hq]
  · rw [hself]
    show (s1.proc np).pagetable = _
    rw [hsz]
  · rw [hself]
    show (s1.proc np).sz = _
    rw [hsz]
  · show update s1.mem (s1.trapframePa np) _ pa = s.mem pa
    rw [htf1, update_of_ne hpa, ← hs1]
    rfl

theorem wp_kfork (hF : Takes E k F) {me : ProcId} (hs : Stock k F s)
    (hnd : s.avail.Nodup) (hunused : ∀ p, (s.proc p).state = .unused →
      (s.proc p).pagetable = none ∧ (s.proc p).trapframe = none ∧ (s.proc p).sz = 0)
    (hpt : (s.proc me).pagetable = some old) (hold : old ∉ s.avail)
    (hlive : (s.pagetables old).live = true)
    (hsz : (s.proc me).sz ≤ trapframeVa)
    (hsrc : ∀ v < userPages, isV ((s.pagetables old).leaf v) = true →
      pte2pa ((s.pagetables old).leaf v) ∉ s.avail) :
    wp E (kfork me) (Forked s me old) s := by
  refine .bind (wp_allocproc hF hs hunused) fun r s1 h => ?_
  cases h with
  | none hprocs htab => exact .pure (.none hprocs htab)
  | slot h =>
    rename_i np root tf
    have hnp : me ≠ np := by grind [h.unused]
    have hroot : old ≠ root := fun heq => hold (heq ▸ h.fresh.1)
    have hme : s1.proc me = s.proc me := h.procs me hnp
    have htold : s1.pagetables old = s.pagetables old := h.others old hroot
    refine wp_pagetableOf (hme.symm ▸ hpt) (wp_pagetableOf h.table (.get_bind ?_))
    rw [hme]
    refine .bind (wp_uvmcopy hF hroot hsz h.stock (by rw [htold]; exact hlive)
      h.good fun v _ hv => ?_) fun r s2 hc => ?_
    · rw [h.empty v hv]
      rfl
    cases hc with
    | none w hcut =>
      -- the child is dismantled
      have hproc := proc_of_beside w.beside
      refine .ite (fun _ => ?_) fun hr => absurd (by decide) hr
      refine .bind (wp_freeproc hF w.stock.kend ?_ ?_ ?_)
        fun _ s' hreap => .pure (.none (.inr ⟨np, h.unused, hreap.slot, fun q hq => ?_⟩)
          fun r hr => ?_)
      · grind [h.trapframe, hs.avail, h.fresh]
      · rw [hproc, h.sz]
        exact Nat.zero_le _
      · intro r hr
        rw [hproc, h.table] at hr
        cases hr
        refine ⟨w.good, fun v hV => ?_⟩
        rw [hproc, h.sz]
        by_cases hv : v < userPages
        · rw [hcut.1 v (Nat.zero_le _) hv] at hV
          cases hV
        · rw [hcut.2 v (.inr (Nat.not_lt.mp hv))] at hV
          exact h.bounded v hV
      · rw [hreap.procs q hq, hproc, h.procs q hq]
      · have hrr : r ≠ root := fun heq => hr (heq ▸ h.fresh.1)
        rw [hreap.others r, w.others r hrr, h.others r hrr]
        rw [hproc, h.table]
        exact fun heq => hrr (Option.some.inj heq).symm
    | all hext w hc =>
      have hproc := proc_of_beside w.beside
      rw [htold] at hc
      refine .ite (fun hr => absurd hr (by decide)) fun _ => ?_
      have htf2 : (s2.proc np).trapframe = some tf := by
        rw [hproc]
        exact h.trapframe
      obtain ⟨hfq, hfpt, hfsz, hfmem⟩ := Kernel.forked_spec me htf2
      suffices hchild : Child s me np old root (s2.forked me np) from
        .modify_bind (.modify_bind (.modify_bind (.get_bind (.pure (.child hchild)))))
      refine ⟨h.unused, fun q hq => ?_, ?_, ?_, h.fresh.1, fun r hr => ?_,
        fun pa hpa => ?_, fun v hv hV => ?_, fun v hv hV => ?_, fun v hV => ?_⟩
      · rw [hfq q hq, hproc, h.procs q hq]
      · rw [hfpt, hproc, h.table]
      · rw [hfsz, hproc, hme]
      · exact (w.others r hr).trans (h.others r hr)
      · grind [h.fresh, hext.mem, h.avail.subset, h.mem]
      · obtain ⟨pa, hpa, hleaf, hmem⟩ := (hc v).1 (Nat.zero_le _) (by omega) hV
        have hsrc' := hsrc v (hv.trans_le (pagesOf_le hsz)) hV
        have hnd1 := nodup_of_subperm h.avail hnd
        refine ⟨pa, h.avail.subset hpa, hleaf, ?_⟩
        rw [hfmem pa fun heq => (h.taken hnd).2 (heq ▸ hpa), hmem hnd1
          fun hin => hsrc' (h.avail.subset hin), h.mem _ hsrc']
      · have hv' : v < 0 ∨ 0 + pagesOf (s.proc me).sz ≤ v
            ∨ isV ((s.pagetables old).leaf v) = false :=
          .inr (hV.imp_left fun h => by omega)
        exact ((hc v).2 hv').trans (h.empty v hv)
      · by_cases hv : v < pagesOf (s.proc me).sz
        · exact .inl hv
        · have heq := (hc v).2 (.inr (.inl (by omega)))
          have hV1 : isV ((s1.pagetables root).leaf v) = true := by
            rw [← heq]
            exact hV
          rcases h.bounded v hV1 with h0 | h0
          · simp only [pagesOf, pgsize] at h0
            omega
          · exact .inr h0

end GemOS
