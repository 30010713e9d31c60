/-
The frame table and the counts of resident pages along every run.

A page comes in with its frame entry and its count (`Tracked.bring`) and
goes out with both (`Tracked.swapOut`); all other moves gain and lose
neither, provided that no page with a registered frame leaves its address
space on another way. Where one does, a single `sbrk` is enough to leave
a free page registered and counted.
-/
import GemOS.Proofs.EvictRun
import GemOS.Proofs.Resident

namespace GemOS

open Function Prog

variable {n : Notes Mark Kernel} {s : Kernel} {g : Ghost}

-- ======== pages come in

variable {pa i root va v : Nat} {f : Proc → Proc} {g' : Ghost} {k : Int}
  {p : ProcId} {s1 s' : Kernel} {t : PageTable} {n' : Notes Mark Kernel}

/-- The pages of the allocator are exactly those with a frame entry. -/
theorem getFrameEntry_of_ram (hlo : kernbase ≤ s.kend) (hk : s.kend ≤ pa) (hpa : RamPage pa) :
    ∃ idx, s.getFrameEntry pa = some idx ∧ s.frameIndexToPa idx = pa := by
  obtain ⟨halign, -, hhi⟩ := hpa
  have hbase : s.frameBase ≤ pa ∧ s.frameBase % pgsize = 0 ∧ kernbase ≤ s.frameBase := by
    simp only [Kernel.frameBase, pgroundup, pgsize, kernbase, phystop] at *
    omega
  refine ⟨(pa - s.frameBase) / pgsize, ?_, ?_⟩
  · grind [Kernel.getFrameEntry]
  · unfold Kernel.frameIndexToPa
    simp only [pgsize] at *
    omega

theorem frameIndexToPa_inj {j : Nat} (h : s.frameIndexToPa i = s.frameIndexToPa j) : i = j :=
  mul_pgsize_inj (Nat.add_left_cancel h)

theorem Counts.resident (hf : Counts f k) (hproc : s1.proc = s.proc) (q : ProcId) :
    ((s1.updProc p f).proc q).residentPages
      = (s.proc q).residentPages + if q = p then k else 0 := by
  by_cases hq : q = p
  · rw [hq, s1.updProc_self, (hf.keeps _).2.2.2.2, hproc, if_pos rfl]
  · rw [s1.updProc_of_ne f hq, hproc, if_neg hq, Int.add_zero]

section

variable (h : Tracked g n s)

include h

/-- A frame in hand stands for no page. -/
theorem Tracked.not_holding (hhand : pa ∈ g.hand)
    (hpa : s.frameIndexToPa i = pa) : ¬ (s.frameTable i).Holding := by
  intro hi
  obtain ⟨p, root, v, -, -, -, hr, hleaf⟩ := h.sound i hi
  have huse : Holds g s (.leaf root v) pa := ⟨hr.1, hr.2.1, hleaf.trans hpa⟩
  exact absurd (h.own.exclusive huse (show Holds g s .hand pa from hhand)) nofun

/-- The counts after a page of `p` came or went. -/
theorem Tracked.recount
    (hatt : ∀ q r, Attached g' s' q r ↔ Attached g s q r) (hp : Attached g s p root)
    (hcount : ∀ q, (s'.proc q).residentPages = (s.proc q).residentPages + if q = p then k else 0)
    (hcard : ((residentSet n' s' root).card : Int) = (residentSet n s root).card + k)
    (hsame : ∀ r, r ≠ root → residentSet n' s' r = residentSet n s r) (q : ProcId) (r : Nat)
    (hq : Attached g' s' q r) : (s'.proc q).residentPages = (residentSet n' s' r).card := by
  have hq' := (hatt q r).mp hq
  rw [hcount, h.counted q r hq']
  by_cases hqp : q = p
  · subst hqp
    obtain rfl := hq'.unique hp
    rw [if_pos rfl, hcard]
  · have hne : r ≠ root := by
      rintro rfl
      exact hqp (h.own.apart q p r hq' hp)
    rw [if_neg hqp, Int.add_zero, hsame r hne]

theorem Tracked.bring {perm : Nat} {rest : List Nat}
    (hown : Own { g with hand := rest, pending := none } (s.brought p root va pa perm f))
    (hhand : g.hand = pa :: rest) (hp : Attached g s p root) (hsz : va < (s.proc p).sz)
    (hmid : ((s.pagetables root).mid (va >>> 21)).isSome)
    (hva : va < trapframeVa) (halign : va % pgsize = 0)
    (hV : isV (s.pte root va) = false) (hperm : perm < 1024) (hf : Counts f 1) :
    Tracked { g with hand := rest, pending := none }
      (n ++ [(.map root va, s)]) (s.brought p root va pa perm f) := by
  have hin : pa ∈ g.hand := by
    rw [hhand]
    exact List.mem_cons_self ..
  obtain ⟨hram, hk⟩ := h.own.ram .hand pa hin
  obtain ⟨idx, hidx, hpa⟩ := getFrameEntry_of_ram h.own.image.1 hk hram
  have hfree := h.not_holding hin hpa
  have hnot := not_resident_invalid (n := n) hV
  have hst : LeafStored g s { g with hand := rest, pending := none }
      (s.brought p root va pa perm f) root va (pa2pte pa ||| perm ||| pteV) := .brought hf rfl
  have hproc : ((s.setLeaf root va (pa2pte pa ||| perm ||| pteV)).registered p va pa).proc
      = s.proc := by
    obtain ⟨frames, hs⟩ := Kernel.registered_shape
      (s.setLeaf root va (pa2pte pa ||| perm ||| pteV)) p va pa
    rw [hs]
    rfl
  have hcount := hf.resident (p := p) hproc
  have hframe : ∀ i, (i = idx ∧ (s.brought p root va pa perm f).frameTable i
      = { inUse := true, owner := some p, vaddr := va, refBit := true,
          swapped := false, swapIndex := -1 })
      ∨ (i ≠ idx ∧ (s.brought p root va pa perm f).frameTable i = s.frameTable i) := by
    intro i
    unfold Kernel.brought Kernel.registered
    rw [show (s.setLeaf root va _).getFrameEntry pa = some idx from hidx]
    by_cases hi : i = idx
    · exact .inl ⟨hi, by rw [hi]; exact update_self ..⟩
    · exact .inr ⟨hi, update_of_ne hi ..⟩
  have hbase : ∀ i, (s.brought p root va pa perm f).frameIndexToPa i = s.frameIndexToPa i := by
    unfold Kernel.brought Kernel.registered
    rw [show (s.setLeaf root va _).getFrameEntry pa = some idx from hidx]
    exact fun _ => rfl
  change ∀ q, ((s.brought p root va pa perm f).proc q).residentPages = _ at hcount
  generalize s.brought p root va pa perm f = s' at *
  -- the resident pages are those before and the new one
  have hnew : Resident (n ++ [(.map root va, s)]) s' root (va >>> 12) := by
    refine ⟨vpn_lt hva, ?_, ?_⟩
    · rw [hst.self hmid]
      exact isV_or_pteV _
    · rw [mul_vpn halign, broughtIn_map]
      exact ⟨p, hp.2, hsz⟩
  have hres : ∀ r v, Resident (n ++ [(.map root va, s)]) s' r v
      ↔ Resident n s r v ∨ (r = root ∧ v = va >>> 12) := by
    intro r v
    by_cases hat : r = root ∧ v = va >>> 12
    · obtain ⟨rfl, rfl⟩ := hat
      exact iff_of_true hnew (.inr ⟨rfl, rfl⟩)
    · rw [or_iff_left hat]
      rw [not_and_or] at hat
      exact resident_congr (hst.other hat) (broughtIn_snoc (mapsAt_ne hat))
  have hold : ∀ r v, Resident n s r v → (s'.pagetables r).leaf v = (s.pagetables r).leaf v := by
    intro r v hr
    rw [hst.tables]
    exact leaf_of_resident hnot hr
  refine ⟨hown, ?_, ?_, h.recount hst.attached hp hcount ?_ fun r hr => ?_⟩
  · intro i hi
    rcases hframe i with ⟨rfl, heq⟩ | ⟨hne, heq⟩
    · rw [heq]
      refine ⟨p, root, va >>> 12, rfl, (mul_vpn halign).symm, (hst.attached p root).mpr hp,
        hnew, ?_⟩
      rw [hst.self hmid, hbase, hpa]
      exact pte2pa_mapped hram.1 hram.2.2 hperm
    · rw [heq] at hi ⊢
      obtain ⟨q, r, v, hq, hv, hap, hr, hleaf⟩ := h.sound i hi
      exact ⟨q, r, v, hq, hv, (hst.attached q r).mpr hap, (hres r v).mpr (.inl hr),
        by rw [hold r v hr, hbase, hleaf]⟩
  · intro r v hr
    rcases (hres r v).mp hr with hr | ⟨rfl, rfl⟩
    · grind [h.known, hst.attached]
    · rcases hframe idx with ⟨-, heq⟩ | ⟨hne, -⟩
      · refine ⟨idx, p, ?_, ?_, ?_, (hst.attached p r).mpr hp⟩
        · rw [heq]
          exact ⟨rfl, rfl⟩
        · rw [heq]
        · rw [heq]
          exact (mul_vpn halign).symm
      · exact absurd rfl hne
  · have hset : residentSet (n ++ [(.map root va, s)]) s' root
        = insert (va >>> 12) (residentSet n s root) := by
      grind [mem_residentSet]
    rw [hset, Finset.card_insert_of_notMem fun hin => hnot (mem_residentSet.mp hin)]
    rfl
  · ext v
    rw [mem_residentSet, mem_residentSet, hres, or_iff_left fun hat => hr hat.1]

-- ======== pages go out

theorem Tracked.swapOut {idx slot : Nat} {block : Int}
    (hown : Own g' (((s.recorded idx slot block).invalidated root idx slot).updProc p f))
    (hdying : g'.dying = g.dying) (hkept : FramesKept (.swapOut idx) (s.recorded idx slot block))
    (huse : (s.frameTable idx).inUse = true)
    (howner : (s.frameTable idx).owner = some p) (hp : Attached g s p root)
    (hmid : ((s.pagetables root).mid ((s.frameTable idx).vaddr >>> 21)).isSome)
    (hf : Counts f (-1)) : Tracked g' (n ++ [(.swapOut idx, s.recorded idx slot block)])
      (((s.recorded idx slot block).invalidated root idx slot).updProc p f) := by
  have hhold : (s.frameTable idx).Holding := ⟨huse, hkept⟩
  -- the entry tells the truth, so its page is the resident page `v0`
  obtain ⟨q0, r0, v0, hq0, hva0, hp0, hr0, hpa0⟩ := h.sound idx hhold
  obtain rfl := Option.some.inj (howner.symm.trans hq0)
  obtain rfl := hp.unique hp0
  have hvpn : (s.frameTable idx).vaddr >>> 12 = v0 := by
    rw [hva0, vpn_mul]
  have hst : LeafStored g s g' (((s.recorded idx slot block).invalidated root idx slot).updProc p f)
      root (s.frameTable idx).vaddr _ := .counted hf hdying rfl rfl
  have hcount : ∀ q, _ := hf.resident (p := p)
    (show ((s.recorded idx slot block).invalidated root idx slot).proc = s.proc from rfl)
  have hframe : ∀ i, (i = idx ∧ ¬ ((((s.recorded idx slot block).invalidated root idx
      slot).updProc p f).frameTable i).Holding) ∨ (i ≠ idx ∧ (((s.recorded idx slot
      block).invalidated root idx slot).updProc p f).frameTable i = s.frameTable i) := by
    intro i
    by_cases hi : i = idx
    · refine .inl ⟨hi, fun hh => ?_⟩
      have hsw := hh.2
      rw [hi] at hsw
      exact absurd ((congrArg FrameEntry.swapped (update_self ..)).symm.trans hsw) nofun
    · exact .inr ⟨hi, update_of_ne hi ..⟩
  have hbase : ∀ i, Kernel.frameIndexToPa (((s.recorded idx slot block).invalidated root idx
      slot).updProc p f) i = s.frameIndexToPa i := fun _ => rfl
  generalize ((s.recorded idx slot block).invalidated root idx slot).updProc p f = s' at *
  -- the resident pages are those before but `v0`
  have hgone : ¬ Resident (n ++ [(.swapOut idx, s.recorded idx slot block)]) s' root v0 := by
    intro hr
    have hV := hr.2.1
    rw [← hvpn, hst.self hmid, isV_swappedPte] at hV
    cases hV
  have hother : ∀ r v, r ≠ root ∨ v ≠ v0 →
      (s'.pagetables r).leaf v = (s.pagetables r).leaf v := fun r v hne =>
    hst.other (hvpn ▸ hne)
  have hres : ∀ r v, Resident (n ++ [(.swapOut idx, s.recorded idx slot block)]) s' r v
      ↔ Resident n s r v ∧ (r ≠ root ∨ v ≠ v0) := by
    grind [resident_congr, broughtIn_snoc, Mark.mapsAt]
  refine ⟨hown, ?_, ?_, h.recount hst.attached hp hcount ?_ fun r hr => ?_⟩
  · intro i hi
    rcases hframe i with ⟨-, hnot⟩ | ⟨hne, heq⟩
    · exact absurd hi hnot
    · rw [heq] at hi ⊢
      obtain ⟨q, r, v, hq, hv, hap, hr, hleaf⟩ := h.sound i hi
      have hat : r ≠ root ∨ v ≠ v0 := by
        by_contra! hcon
        rw [hcon.1, hcon.2, hpa0] at hleaf
        exact hne (frameIndexToPa_inj hleaf).symm
      exact ⟨q, r, v, hq, hv, (hst.attached q r).mpr hap, (hres r v).mpr ⟨hr, hat⟩,
        by rw [hother r v hat, hbase, hleaf]⟩
  · intro r v hr
    obtain ⟨hr, hne⟩ := (hres r v).mp hr
    obtain ⟨i, q, hi, hq, hv, hap⟩ := h.known r v hr
    rcases hframe i with ⟨rfl, -⟩ | ⟨-, heq⟩
    · -- the entry of `v0` is that of no other page
      obtain rfl := Option.some.inj (hq.symm.trans howner)
      obtain rfl := hap.unique hp
      obtain rfl := mul_pgsize_inj (hv.symm.trans hva0)
      exact absurd rfl (hne.resolve_left fun hr => hr rfl)
    · exact ⟨i, q, heq ▸ hi, heq ▸ hq, heq ▸ hv, (hst.attached q r).mpr hap⟩
  · have hset : residentSet (n ++ [(.swapOut idx, s.recorded idx slot block)]) s' root
        = (residentSet n s root).erase v0 := by
      grind [mem_residentSet]
    have hin := mem_residentSet.mpr hr0
    have hpos := Finset.card_pos.mpr ⟨v0, hin⟩
    rw [hset, Finset.card_erase_of_mem hin]
    omega
  · ext v
    rw [mem_residentSet, mem_residentSet, hres, and_iff_left (.inl hr)]

-- ======== all moves

omit h in
theorem residentSet_empty (h : ∀ v, ¬ Resident n s root v) : residentSet n s root = ∅ :=
  Finset.eq_empty_of_forall_notMem fun v hv => h v (mem_residentSet.mp hv)

/-- A process none of whose frames is registered has no resident pages. -/
theorem Tracked.unregistered (hp : Attached g s p root)
    (hno : ∀ i, (s.frameTable i).Holding → (s.frameTable i).owner ≠ some p) :
    ¬ Resident n s root v := by
  intro hr
  obtain ⟨i, q, hi, hq, hap, -⟩ := h.frameOf hr
  obtain rfl := h.own.apart q p root hap hp
  exact hno i hi hq

/-- An update of a process that keeps its table and its count. -/
theorem Tracked.edit (hown : Own g' (s1.updProc p f))
    (hdying : g'.dying = g.dying) (hkend : s1.kend = s.kend)
    (hproc : s1.proc = s.proc) (htables : s1.pagetables = s.pagetables)
    (hframes : s1.frameTable = s.frameTable) (hpt : ∀ q, (f q).pagetable = q.pagetable)
    (hres : ∀ q, (f q).residentPages = q.residentPages) : Tracked g' n (s1.updProc p f) := by
  have hatt : ∀ q root, Attached g' (s1.updProc p f) q root ↔ Attached g s q root := by
    intro q root
    unfold Attached
    rw [hdying, s1.updProc_field Proc.pagetable p (hpt _) q, hproc]
  refine h.procs hown hkend htables (fun i => ?_) (fun _ _ => Iff.rfl)
    (fun q root v _ hq => (hatt q root).mpr hq) fun q root hq => ?_
  · exact congrArg (fun t => (t i).core) hframes
  · rw [s1.updProc_field Proc.residentPages p (hres _) q, hproc]
    exact h.counted q root ((hatt q root).mp hq)

/-- Linking an interior table changes no leaf. -/
theorem Tracked.link (hown : Own g' ((s.memset pa 0).setTable root t))
    (hdying : g'.dying = g.dying) (hleaf : ∀ v, t.leaf v = (s.pagetables root).leaf v) :
    Tracked g' n ((s.memset pa 0).setTable root t) := by
  have hsame := Kernel.setTable_leaf (s := s.memset pa 0) hleaf
  refine h.tables hown hdying rfl rfl rfl (fun r v => ?_) fun r v _ => ?_
  · exact resident_congr (hsame r v) Iff.rfl
  · rw [hsame]
    rfl

/-- A leaf of a page that is resident neither before nor after. -/
theorem Tracked.setLeaf {w : Nat}
    (hown : Own g' (s1.setLeaf root va w)) (hdying : g'.dying = g.dying)
    (hkend : s1.kend = s.kend) (hproc : s1.proc = s.proc) (htables : s1.pagetables = s.pagetables)
    (hframes : s1.frameTable = s.frameTable) (hnotes : ∀ r v, r ≠ root ∨ v ≠ va >>> 12 →
      (BroughtIn n' r (v * pgsize) ↔ BroughtIn n r (v * pgsize)))
    (hbefore : ¬ Resident n s root (va >>> 12))
    (hafter : ¬ Resident n' (s1.setLeaf root va w) root (va >>> 12)) :
    Tracked g' n' (s1.setLeaf root va w) := by
  have htab : (s1.setLeaf root va w).pagetables = (s.setLeaf root va w).pagetables := by
    show update s1.pagetables root _ = update s.pagetables root _
    rw [htables]
  have hiff : ∀ r v, Resident n' (s1.setLeaf root va w) r v
      ↔ Resident n' (s.setLeaf root va w) r v := by
    intro r v
    unfold Resident
    rw [htab]
  rw [hiff] at hafter
  refine h.tables hown hdying hkend hproc hframes (fun r v => ?_) fun r v hr => ?_
  · rw [hiff]
    exact resident_setLeaf (hnotes r v) hbefore hafter
  · rw [htab, leaf_of_resident hbefore hr]

/-- A table that has no resident pages, before or after, is replaced. -/
theorem Tracked.replace (hown : Own g' s') (hdying : g'.dying = g.dying) (hkend : s'.kend = s.kend)
    (hproc : s'.proc = s.proc) (hframes : s'.frameTable = s.frameTable)
    (htables : s'.pagetables = update s.pagetables root t)
    (hbefore : ∀ v, ¬ Resident n s root v) (hafter : ∀ v, t.leaf v = 0) : Tracked g' n s' := by
  have hother : ∀ r v, r ≠ root → (s'.pagetables r).leaf v = (s.pagetables r).leaf v := by
    intro r v hr
    rw [htables, update_of_ne hr]
  have hnone : ∀ v, ¬ Resident n s' root v := by
    intro v hr
    have hV := hr.2.1
    rw [htables, update_self, hafter, isV_zero] at hV
    cases hV
  refine h.tables hown hdying hkend hproc hframes (fun r v => ?_) fun r v hr => ?_
  · grind [resident_congr]
  · rw [hother r v fun heq => hbefore v (heq ▸ hr)]

/-- A process gets a table without resident pages, having none itself. -/
theorem Tracked.handOver (hown : Own g' (s.updProc p f))
    (hdying : g'.dying = g.dying) (hnotes : ∀ r va, BroughtIn n' r va ↔ BroughtIn n r va)
    (hpt : ∀ q, (f q).pagetable = some root) (hres : ∀ q, (f q).residentPages = q.residentPages)
    (hold : ∀ r v, Attached g s p r → ¬ Resident n s r v)
    (hnew : ∀ v, ¬ Resident n s root v) (hzero : (s.proc p).residentPages = 0) :
    Tracked g' n' (s.updProc p f) := by
  refine h.procs hown rfl rfl (fun _ => rfl) hnotes ?_ ?_
  · intro q r v hr hq
    by_cases hqp : q = p
    · subst hqp
      exact absurd hr (hold r v hq)
    · refine ⟨hdying ▸ hq.1, ?_⟩
      rw [s.updProc_of_ne f hqp]
      exact hq.2
  · intro q r hq
    by_cases hqp : q = p
    · subst hqp
      have hroot := hq.2
      rw [s.updProc_self, hpt] at hroot
      cases hroot
      rw [s.updProc_self, hres, hzero, residentSet_empty hnew]
      rfl
    · obtain ⟨hd, htab⟩ := hq
      rw [s.updProc_of_ne f hqp] at htab ⊢
      exact h.counted q r ⟨hdying ▸ hd, htab⟩

/-- A frame about to become a table has none yet. -/
theorem Tracked.hand_empty (hhand : root ∈ g.hand) : ¬ Resident n s root v := by
  refine h.dead_empty (Bool.eq_false_iff.mpr fun hlive => ?_)
  have hroot : Holds g s (.root root) root := ⟨rfl, hlive⟩
  exact absurd (h.own.exclusive hroot (show Holds g s .hand root from hhand)) nofun

/-- Every move that keeps the registered frames in their address spaces
keeps the invariant. -/
theorem Tracked.move {t : Notes Mark Kernel}
    (m : Move g s t g' s') (hkept : ∀ x ∈ t, FramesKept x.1 x.2) : Tracked g' (n ++ t) s' := by
  have hown := h.own.move m
  cases m with
  | aside ha =>
    grind [Attached, ha.pagetable, h.procs, ha.kend, ha.tables, ha.frames, ha.resident, h.counted]
  | take _ | give _ | settle _ _ _ | unsettle _ | unswap _ _ _ _
  | abandon _ _ _ =>
    rw [List.append_nil]
    exact h.tables hown rfl rfl rfl rfl (fun _ _ => Iff.rfl) fun _ _ _ => rfl
  | linkDir _ _ _ =>
    rw [List.append_nil]
    exact h.link hown rfl fun _ => rfl
  | linkMid _ _ _ =>
    rw [List.append_nil]
    exact h.link hown rfl fun _ => by rw [linkMid_leaf]
  | map _ _ habove _ _ _ halign hV _ =>
    exact h.setLeaf hown rfl rfl rfl rfl rfl (fun r v hne => broughtIn_snoc (mapsAt_ne hne))
      (not_resident_invalid hV) (not_resident_above halign habove)
  | bring hhand _ hp hsz hmid hva halign hV hperm hf =>
    exact h.bring hown hhand hp hsz hmid hva halign hV hperm hf
  | @unmap root va _ hmid _ _ _ =>
    refine h.setLeaf hown rfl rfl rfl rfl rfl (fun r v _ => broughtIn_snoc rfl) (fun hr => ?_)
      (not_resident_invalid ?_)
    · obtain ⟨i, -, hi, -, -, hpa⟩ := h.frameOf hr
      exact hkept _ (List.mem_singleton_self _) i hi hpa
    · show isV (((s.setLeaf root va 0).pagetables root).leaf (va >>> 12)) = _
      rw [Kernel.setLeaf_leaf_self hmid, isV_zero]
  | touch _ hV =>
    rw [List.append_nil]
    exact h.rewrite hown (isV_or_pteA _) (pte2pa_or _ (by decide))
  | guard _ _ =>
    rw [List.append_nil]
    exact h.rewrite hown (isV_clearFlag_pteU _) (pte2pa_clearFlag _ (by decide))
  | @create root rest hhand _ =>
    rw [List.append_nil]
    refine h.replace hown rfl rfl rfl rfl rfl (fun v => h.hand_empty ?_) fun _ => rfl
    rw [hhand]
    exact List.mem_cons_self ..
  | @mapFixed root va pa perm _ hva _ =>
    have hlo : trapframeVa ≤ va := by
      rcases hva with rfl | rfl
      · decide
      · exact Nat.le_refl _
    exact h.setLeaf hown rfl rfl rfl rfl rfl (fun r v hne => broughtIn_snoc (mapsAt_ne hne))
      (not_resident_fixed hlo) (not_resident_fixed hlo)
  | unmapFixed _ hlo _ =>
    exact h.setLeaf hown rfl rfl rfl rfl rfl (fun r v _ => broughtIn_snoc rfl)
      (not_resident_fixed hlo) (not_resident_fixed hlo)
  | destroy hspare =>
    rw [List.append_nil]
    unfold Kernel.freedTable at hown ⊢
    exact h.replace hown rfl rfl rfl rfl rfl (fun v => h.spare_empty hspare) fun _ => rfl
  | setTrapframe _ _ _ _ | setSz _ _ =>
    rw [List.append_nil]
    exact h.edit hown rfl rfl rfl rfl rfl (fun _ => rfl) fun _ => rfl
  | freeTrapframe _ _ _ =>
    rw [List.append_nil]
    exact h.edit hown rfl rfl rfl rfl rfl (fun _ => rfl) fun _ => rfl
  | @attach p root hspare hdying hpt hst =>
    rw [List.append_nil]
    have hsound := h.own.procs p (by simp [hdying])
    have hused : (s.proc p).state = .used := by
      by_contra hne
      exact hsound.table hst hne hpt
    refine h.handOver hown rfl (fun _ _ => Iff.rfl) (fun _ => rfl)
      (fun _ => rfl) (fun r v hr => ?_) (fun v => h.spare_empty hspare) (hsound.used hused hpt)
    cases hpt.symm.trans hr.2
  | @commit p root old sz _ hspare hold hsz =>
    have hnone : ∀ v, ¬ Resident n s old v := fun v =>
      h.unregistered hold (hkept _ (List.mem_singleton_self _))
    refine h.handOver hown rfl (fun _ _ => broughtIn_snoc rfl)
      (fun _ => rfl) (fun _ => rfl) (fun r v hr => ?_) (fun v => h.spare_empty hspare) ?_
    · obtain rfl := hold.unique hr
      exact hnone v
    · rw [h.counted p old hold, residentSet_empty hnone]
      rfl
  | @reap p _ _ hdying =>
    have hne : ∀ q, g.dying ≠ some q := by simp [hdying]
    refine h.procs hown rfl rfl (fun _ => rfl)
      (fun _ _ => broughtIn_snoc rfl) (fun q r v hr hq => ?_)
      fun q r hq => h.counted q r ⟨hne q, hq.2⟩
    refine ⟨fun heq => ?_, hq.2⟩
    cases heq
    exact h.unregistered hq (hkept _ (List.mem_singleton_self _)) hr
  | @clear p hdying _ _ =>
    rw [List.append_nil]
    refine h.procs hown rfl rfl (fun _ => rfl) (fun _ _ => Iff.rfl)
      (fun q r v _ hq => ⟨by simp, ?_⟩) fun q r hq => ?_
    · have hqp : q ≠ p := fun heq => hq.1 (by rw [heq]; exact hdying)
      rw [s.updProc_of_ne _ hqp]
      exact hq.2
    · have hqp : q ≠ p := by
        intro heq
        have htab := hq.2
        rw [heq, s.updProc_self] at htab
        cases htab
      have htab := hq.2
      rw [s.updProc_of_ne _ hqp] at htab ⊢
      refine h.counted q r ⟨fun hd => hqp ?_, htab⟩
      exact Option.some.inj (hd.symm.trans hdying)
  | shrink _ =>
    exact h.procs hown rfl rfl (fun _ => rfl)
      (fun _ _ => broughtIn_snoc rfl) (fun _ _ _ _ hq => hq) h.counted
  | swapOut _ huse howner hp hmid _ _ _ _ hf =>
    exact h.swapOut hown rfl (hkept _ (List.mem_singleton_self _)) huse howner hp hmid hf

end

/-- What the frame table and the counts rest on. -/
theorem tracked_kept : Kept FramesKept Tracked where
  own h := h.own
  move h m hkept := h.move m hkept
  accurate := by
    intro g n s idx slot block h huse hkept
    obtain ⟨p, root, v, hp, hva, hap, hr, hpa⟩ := h.sound idx ⟨huse, hkept⟩
    refine ⟨p, root, hp, hap.2, ?_, ?_⟩
    · unfold Kernel.pte
      rw [hva, vpn_mul]
      exact hr.2.1
    · unfold Kernel.pte
      rw [hva, vpn_mul]
      exact hpa

theorem Booted.tracked (h : Booted s) : Tracked .empty [] s := by
  have hnone : ∀ root v, ¬ Resident [] s root v := by
    intro root v hr
    obtain ⟨_, hs, -⟩ := hr.2.2
    cases hs
  refine ⟨h.own, fun i hi => ?_, fun root v hr => absurd hr (hnone root v), fun p root hp => ?_⟩
  · have huse := hi.1
    rw [h.frames] at huse
    cases huse
  · have htab := hp.2
    rw [h.proc] at htab
    cases htab

theorem Runs.tracked (h : Runs FramesKept n s) : Tracked .empty n s :=
  tracked_kept.runs (fun _ hb => hb.tracked) h

-- ======== the runs

/-- As long as no page with a registered frame leaves its address space
except by being swapped out, the frame table tells the truth. -/
theorem frame_table_sound (h : Runs FramesKept n s) : FrameTableSound s := by
  intro i hi
  have htr := h.tracked
  obtain ⟨p, root, v, hp, hva, hap, hr, hpa⟩ := htr.sound i hi
  have hleaf : s.pte root (s.frameTable i).vaddr = (s.pagetables root).leaf v := by
    unfold Kernel.pte
    rw [hva, vpn_mul]
  refine ⟨p, root, hp, (htr.own.procs p hap.1).state_ne hap.2, hap.2, ?_, ?_⟩
  · rw [hleaf]
    exact hr.2.1
  · rw [hleaf]
    exact hpa

/-- The first process grows by a page without touching it, and then
touches it. -/
def touchPage : List Op :=
  [.userinit, .schedule 0 .running 3, .sbrk 0 4096 false, .fault 0 0]

def Mark.isMap : Mark → Bool
  | .map .. => true
  | _ => false

theorem framesKept_maps (h : n.all (fun x => x.1.isMap) = true) : ∀ x ∈ n, FramesKept x.1 x.2 := by
  intro x hx
  have hmap := List.all_eq_true.mp h x hx
  obtain ⟨k, t⟩ := x
  cases k with
  | map _ _ => trivial
  | _ => cases hmap

theorem frame_table_sound_touched : ∃ n s, Runs FramesKept n s ∧ (s.frameTable 4).Holding
      ∧ FrameTableSound s := by
  have hboot : Runs FramesKept [] smallBoot := .init smallBoot_booted
  obtain ⟨n, s, hr, -, huse, hsw⟩ := hboot.played (P := fun n s =>
    n.all (fun x => x.1.isMap) = true ∧ (s.frameTable 4).inUse = true
      ∧ (s.frameTable 4).swapped = false)
    (fun _ _ h => framesKept_maps h.1) touchPage (by decide +kernel)
  exact ⟨n, s, hr, ⟨huse, hsw⟩, frame_table_sound hr⟩

/-- Then it gives the page back. -/
def shrinkPage : List Op := touchPage ++ [.sbrk 0 (-4096) true]

/-- The page is on the free list again and its frame is still
registered. -/
theorem frame_table_stale : ∃ n s, Runs (fun _ _ => True) n s ∧ (s.frameTable 4).Holding
      ∧ s.frameIndexToPa 4 ∈ s.freelist ∧ ¬ FrameTableSound s := by
  have hboot : Runs (fun _ _ => True) [] smallBoot := .init smallBoot_booted
  obtain ⟨n, s, hr, huse, hsw, howner, hV, hfree⟩ := hboot.played (P := fun _ s =>
    (s.frameTable 4).inUse = true ∧ (s.frameTable 4).swapped = false
      ∧ (s.frameTable 4).owner = some 0 ∧ isV (s.procPte 0 (s.frameTable 4).vaddr) = false
      ∧ s.frameIndexToPa 4 ∈ s.freelist)
    (fun _ _ _ _ _ => trivial) shrinkPage (by decide +kernel)
  refine ⟨n, s, hr, ⟨huse, hsw⟩, hfree, fun hsound => ?_⟩
  obtain ⟨p, root, hp, -, hpt, hvalid, -⟩ := hsound 4 ⟨huse, hsw⟩
  obtain rfl := Option.some.inj (howner.symm.trans hp)
  rw [Kernel.procPte, hpt] at hV
  exact absurd (hV.symm.trans hvalid) nofun

/-- Under the same condition every live process counts its resident
pages. -/
theorem resident_pages_counted (h : Runs FramesKept n s) : ResidentCounted n s := by
  intro p hlive
  have htr := h.tracked
  have hcount : (s.proc p).residentPages = (residentOf n s p).card := by
    unfold residentOf
    cases hpt : (s.proc p).pagetable with
    | none =>
      have hsound := htr.own.procs p nofun
      have hused : (s.proc p).state = .used := by
        by_contra hne
        exact hsound.table hlive hne hpt
      rw [hsound.used hused hpt]
      rfl
    | some root => exact htr.counted p root ⟨nofun, hpt⟩
  refine ⟨hcount, ?_⟩
  rw [hcount]
  exact Int.natCast_nonneg _

theorem resident_pages_counted_touched : ∃ n s, Runs FramesKept n s ∧ (s.proc 0).residentPages = 1
      ∧ ResidentCounted n s := by
  have hboot : Runs FramesKept [] smallBoot := .init smallBoot_booted
  obtain ⟨n, s, hr, -, hone⟩ := hboot.played (P := fun n s =>
    n.all (fun x => x.1.isMap) = true ∧ (s.proc 0).residentPages = 1)
    (fun _ _ h => framesKept_maps h.1) touchPage (by decide +kernel)
  exact ⟨n, s, hr, hone, resident_pages_counted hr⟩

/-- Mappings at address 0, or above the user pages. -/
def Mark.mapsZero : Mark → Bool
  | .map _ va => va == 0 || decide (userPages * pgsize ≤ va)
  | _ => true

/-- A page brought in is one that was mapped. -/
theorem BroughtIn.mapped (h : BroughtIn n root va) : ∃ x ∈ n, x.1.mapsAt root va = true := by
  obtain ⟨s, hs, -⟩ := h
  obtain ⟨x, hx, -⟩ := Option.map_eq_some_iff.mp hs
  exact ⟨x, List.mem_filter.mp (List.mem_of_getLast? hx)⟩

theorem resident_mapsZero (h : n.all (fun x => x.1.mapsZero) = true)
    (hr : Resident n s root v) : v = 0 := by
  obtain ⟨x, hx, hat⟩ := hr.2.2.mapped
  have hzero := List.all_eq_true.mp h x hx
  obtain ⟨k, t⟩ := x
  cases k with
  | map r a =>
    simp only [Mark.mapsAt, Bool.and_eq_true, beq_iff_eq] at hat
    simp only [Mark.mapsZero, hat.2, Bool.or_eq_true, beq_iff_eq, decide_eq_true_eq] at hzero
    have hlt := hr.1
    simp only [pgsize, userPages] at *
    omega
  | _ => cases hat

/-- The process still counts the page it gave back. -/
theorem resident_pages_overcounted : ∃ n s, Runs (fun _ _ => True) n s ∧ (s.proc 0).state = .running
      ∧ (s.proc 0).residentPages = 1 ∧ residentOf n s 0 = ∅
      ∧ ¬ ResidentCounted n s := by
  have hboot : Runs (fun _ _ => True) [] smallBoot := .init smallBoot_booted
  obtain ⟨n, s, hr, hmaps, hstate, hpages, hV⟩ := hboot.played (P := fun n s =>
    n.all (fun x => x.1.mapsZero) = true ∧ (s.proc 0).state = .running
      ∧ (s.proc 0).residentPages = 1 ∧ isV (s.procPte 0 0) = false)
    (fun _ _ _ _ _ => trivial) shrinkPage (by decide +kernel)
  have hnone : residentOf n s 0 = ∅ := by
    unfold residentOf
    cases hpt : (s.proc 0).pagetable with
    | none => rfl
    | some root =>
      refine residentSet_empty fun v hr => ?_
      obtain rfl := resident_mapsZero hmaps hr
      rw [Kernel.procPte, hpt] at hV
      exact absurd (hV.symm.trans hr.2.1) nofun
  refine ⟨n, s, hr, hstate, hpages, hnone, fun hcount => ?_⟩
  have hbad := (hcount 0 (by rw [hstate]; exact nofun)).1
  rw [hpages, hnone] at hbad
  cases hbad

end GemOS
