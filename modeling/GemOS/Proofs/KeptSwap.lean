/-
Swapping and page faults (`memsys.c`, `vmfault`, the user copies) on the
page machine.

An eviction takes a page out of the table its frame entry names, so this
is where the hypothesis on `swapOut` notes is needed: with an entry that
tells the truth the page is unmapped there and handed over, and nothing
else happens to it. What a swap-in relies on across an eviction is that
the entries in use are not written (`Durable`).
-/
import GemOS.Proofs.KeptVm
import GemOS.Proofs.Spaces

namespace GemOS

open Function Prog

variable {G : Mark → Kernel → Prop} {J : Ghost → Notes Mark Kernel → Kernel → Prop} {g : Ghost}

variable {s s' : Kernel} {t : Notes Mark Kernel} {idx slot root va : Nat} {me p : ProcId}
  {R : (Nat → SwapDiskEntry) → Prop} {u : Unit}

-- ======== requests

theorem Served.aside (h : Served s s') : Aside s s' := by
  have hprocs := h.procs
  have hperm := h.perm
  obtain ⟨fl, hd, m, e, rq, x1, x2, x3, x4, x5, proc, rfl⟩ := h.shape
  exact { Aside.refl s with
      pages := hperm
      sz := fun p => (Proc.bare_eq (hprocs p)).2.1
      pagetable := fun p => (Proc.bare_eq (hprocs p)).2.2.1
      trapframe := fun p => (Proc.bare_eq (hprocs p)).2.2.2.1
      procs := fun p hp => hp.congr (hprocs p)
      idle := fun hi => hi.congr rfl rfl
      resident := fun p _ => (Proc.bare_eq (hprocs p)).2.2.2.2 }

/-- A request comes and goes; the frame and swap tables stay. -/
theorem Kept.submitRequest (hK : Kept G J) {type : DiskOp} {block : Int}
    {buffer : Nat} {p : Option ProcId}
    (R : Nat → (Nat → FrameEntry) → (Nat → SwapDiskEntry) → Prop) :
    Triple G (fun n s => J g n s ∧ R s.kend s.frameTable s.swapDiskTable)
      (submitRequest type block buffer p)
      fun _ n s => J g n s ∧ R s.kend s.frameTable s.swapDiskTable := by
  rintro n s r s' t ⟨hJ, hR⟩ hrun _
  obtain ⟨rfl, -, hserved⟩ := submitRequest_ok (hK.own hJ).idle hrun
  rw [List.append_nil]
  refine ⟨hK.quiet hJ (.aside hserved.aside), ?_⟩
  obtain ⟨fl, hd, m, e, rq, x1, x2, x3, x4, x5, proc, rfl⟩ := hserved.shape
  exact hR

-- ======== swap-out

/-- A property of the swap table that writing free slots does not
break. -/
def Durable (R : (Nat → SwapDiskEntry) → Prop) : Prop :=
  ∀ swaps slot e, R swaps → (swaps slot).inUse = false → R (update swaps slot e)

theorem durable_true : Durable fun _ => True := fun _ _ _ _ _ => trivial

/-- A swap entry in use stays while pages go out to other slots. -/
theorem durable_entry {e : SwapDiskEntry}
    (he : e.inUse = true) : Durable fun swaps => swaps slot = e := by
  intro swaps slot' e' h hfree
  have hne : slot ≠ slot' := by grind
  rw [update_of_ne hne]
  exact h

/-- A valid PTE lies in a live table. -/
theorem Own.live_of_isV (h : Own g s)
    (hV : isV (s.pte root va) = true) : (s.pagetables root).live = true := by
  refine Bool.not_eq_false _ |>.mp fun hdead => ?_
  rw [Kernel.pte, h.dead root hdead] at hV
  cases isV_zero.symm.trans hV

/-- Every swap-out leaves its note. -/
theorem markSwappedOut_note (h : markSwappedOut idx slot s = .ok (u, s', t)) :
    (.swapOut idx, s) ∈ t := by
  obtain ⟨_, s1, t1, t2, hnote, -, rfl⟩ := bind_ok h
  cases hnote
  exact List.mem_cons_self ..

/-- Recording, invalidating and counting the page of an entry that tells
the truth. -/
theorem Own.swapOut {block : Int} (h : Own g s)
    (huse : (s.frameTable idx).inUse = true) (hacc : Accurate s idx)
    (hat : g.AtRest) (hlt : slot < maxSwapDiskEntries)
    (hslot : (s.swapDiskTable slot).inUse = false)
    (hrun : markSwappedOut idx slot (s.recorded idx slot block) = .ok (u, s', t)) :
    Move g s t (g.grab (some (s.frameIndexToPa idx))) (after (countEviction idx) s') := by
  obtain ⟨p, root, hown, hpt, hV, hpa⟩ := hacc
  have hva : (s.frameTable idx).vaddr < maxva := by
    have := (h.frames idx huse).1
    simp only [trapframeVa, trampolineVa, maxva, pgsize] at *
    omega
  have hmid := mid_of_isV hV
  have hmark : markSwappedOut idx slot (s.recorded idx slot block)
      = .ok ((), (s.recorded idx slot block).invalidated root idx slot,
        [(.swapOut idx, s.recorded idx slot block)]) :=
    markSwappedOut_run slot hown hpt hva (h.live_of_isV hV) hmid
  rw [hmark] at hrun
  cases hrun
  have hown' : (((s.recorded idx slot block).invalidated root idx
      slot).frameTable idx).owner = some p := by
    show (update s.frameTable idx _ idx).owner = some p
    rw [update_self]
    exact hown
  simp only [after, countEviction, modify_run, hown']
  refine .swapOut hat.pending huse hown ⟨hat.alive _, hpt⟩ hmid hV hpa hlt
    hslot ?_
  exact fun _ => rfl

theorem takeSwapBlock_ok {r : Option Int} (h : takeSwapBlock s = .ok (r, s', t)) :
    t = [] ∧ ∃ k, s' = { s with nextSwapBlock := k } := by
  simp only [takeSwapBlock, get_bind_run] at h
  split at h
  · cases h
    exact ⟨rfl, s.nextSwapBlock, rfl⟩
  · cases h
    exact ⟨rfl, _, rfl⟩

theorem Aside.block (s : Kernel) (k : Int) : Aside s { s with nextSwapBlock := k } :=
  { Aside.refl s with idle := fun h => h.congr rfl rfl }

/-- What a `swap_page_out` that returns has done: nothing that ownership
sees, or that and then the marking of its frame. -/
theorem swapPageOut_ok {r : Int} (hidle : Idle s)
    (h : swapPageOut (s.frameIndexToPa idx) s = .ok (r, s', t)) :
    (r = -1 ∧ t = [] ∧ Aside s s') ∨ ∃ s2 slot block, r = 0 ∧ Aside s s2
        ∧ slot < maxSwapDiskEntries ∧ (s.swapDiskTable slot).inUse = false
        ∧ markSwappedOut idx slot (s2.recorded idx slot block) = .ok ((), s', t) := by
  have hstay : ∀ {r' : Int}, .ok (-1, s, []) = (.ok (r', s', t) :
      Except Fault (Int × Kernel × Notes Mark Kernel)) → r' = -1 ∧ t = [] ∧ Aside s s' := by
    intro r' heq
    cases heq
    exact ⟨rfl, rfl, .refl s⟩
  unfold GemOS.swapPageOut at h
  rw [get_bind_run] at h
  cases hidx : s.getFrameEntry (s.frameIndexToPa idx) with
  | none => rw [hidx] at h; exact .inl (hstay h)
  | some i =>
    obtain rfl := getFrameEntry_index hidx
    rw [hidx] at h
    dsimp only at h
    split at h
    · exact .inl (hstay h)
    have hfind : findSwapSlot s = .ok (s.freeSlot, s, []) := rfl
    rw [bind_run_quiet hfind] at h
    cases hslot : s.freeSlot with
    | none => rw [hslot] at h; exact .inl (hstay h)
    | some slot =>
      rw [hslot] at h
      obtain ⟨o, s1, t1, t2, htake, hrest, rfl⟩ := bind_ok h
      obtain ⟨rfl, k, rfl⟩ := takeSwapBlock_ok htake
      cases o with
      | none =>
        cases hrest
        exact .inl ⟨rfl, rfl, .block s k⟩
      | some block =>
        simp only [get_bind_run] at hrest
        obtain ⟨r', s2, t3, t4, hsub, hmark, rfl⟩ := bind_ok hrest
        have hidle1 : Idle { s with nextSwapBlock := k } := hidle.congr rfl rfl
        obtain ⟨rfl, -, hserved⟩ := submitRequest_ok hidle1 hsub
        have ha : Aside s s2 := (Aside.block s k).trans hserved.aside
        split at hmark
        · cases hmark
          exact .inl ⟨rfl, rfl, ha⟩
        · obtain ⟨_, s3, t5, t6, hrec, hmark', rfl⟩ := bind_ok hmark
          cases hrec
          obtain ⟨_, s4, t7, t8, hout, hret, rfl⟩ := bind_ok hmark'
          cases hret
          refine .inr ⟨s2, slot, block, rfl, ha, by simpa using firstIndex_lt _ hslot,
            (freeSlot_spec hslot).1, ?_⟩
          simp only [List.nil_append, List.append_nil]
          exact hout

variable (hK : Kept G J)

include hK

/-- The eviction of a frame in use. -/
theorem Kept.evictFrame (hR : Durable R) (hat : g.AtRest) (idx : Nat) :
    Triple G (fun n s => J g n s ∧ R s.swapDiskTable ∧ (s.frameTable idx).inUse = true)
      (evictFrame idx) fun r n s => J (g.grab r) n s ∧ R s.swapDiskTable := by
  rintro n s r s' t ⟨hJ, hRs, huse⟩ hrun hG
  simp only [GemOS.evictFrame, get_bind_run] at hrun
  obtain ⟨v, s3, t1, t2, hout, hrest, rfl⟩ := bind_ok hrun
  rcases swapPageOut_ok (hK.own hJ).idle hout with
    ⟨rfl, rfl, ha⟩ | ⟨s2, slot, block, rfl, ha, hlt, hfree, hmark⟩
  · cases hrest
    rw [List.append_nil, List.append_nil]
    exact ⟨hK.quiet hJ (.aside ha), ha.swaps ▸ hRs⟩
  -- the frame and the free slot are as they were before the request
  have hJ2 := hK.quiet hJ (.aside ha)
  have huse2 : (s2.frameTable idx).inUse = true := (FrameEntry.core_eq (ha.frames idx)).1.trans huse
  have hfree2 : (s2.swapDiskTable slot).inUse = false := by
    rw [ha.swaps]
    exact hfree
  obtain ⟨_, s4, t3, t4, hcount, hret, rfl⟩ := bind_ok hrest
  cases hcount
  cases hret
  simp only [List.append_nil] at hG ⊢
  have hacc := hK.accurate hJ2 huse2 (hG _ (markSwappedOut_note hmark))
  have hmove := (hK.own hJ2).swapOut huse2 hacc hat hlt hfree2 hmark
  have hpa : s2.frameIndexToPa idx = s.frameIndexToPa idx := by
    unfold Kernel.frameIndexToPa Kernel.frameBase
    rw [ha.kend]
  rw [hpa] at hmove
  refine ⟨hK.move hJ2 hmove hG, ?_⟩
  have hswaps : (after (countEviction idx) s3).swapDiskTable
      = (s2.recorded idx slot block).swapDiskTable :=
    (keeps_countEviction idx (s := s3) rfl).trans
      (keeps_markSwappedOut (fun _ => rfl) (fun _ _ _ _ => rfl) hmark)
  show R (after (countEviction idx) s3).swapDiskTable
  rw [hswaps]
  refine hR _ _ _ ?_ hfree2
  rw [ha.swaps]
  exact hRs

-- ======== evictions

omit hK in
/-- The scan changes reference bits and the hand. -/
theorem Scanned.aside (h : Scanned s s') : Aside s s' := by
  obtain ⟨table, hand, rfl, hcore⟩ := h
  exact { Aside.refl s with
      frames := hcore
      idle := fun hi => hi.congr rfl rfl }

/-- The victim is in use. -/
theorem Kept.selectVictim {start : Fin maxFrames} :
    Triple G (fun n s => J g n s ∧ R s.swapDiskTable) (selectVictim start)
      fun r n s => (J g n s ∧ R s.swapDiskTable)
        ∧ ∀ idx, r = some idx → (s.frameTable idx).inUse = true := by
  rintro n s r s' t ⟨hJ, hR⟩ hrun _
  obtain ⟨hscan, rfl⟩ := selectVictim_ok hrun
  obtain ⟨v, rfl, hchoice⟩ := selectVictim_choice hrun
  have hswaps := keeps_selectVictim (f := Kernel.swapDiskTable) (fun _ _ _ => rfl) _ hrun
  rw [List.append_nil]
  refine ⟨⟨hK.quiet hJ (.aside hscan.aside), hswaps ▸ hR⟩, fun idx hidx => ?_⟩
  cases hidx
  have huse : (s.frameTable v).inUse = true := by
    grind [hchoice.evictable, FrameEntry.evictable]
  obtain ⟨table, hand, rfl, hcore⟩ := hscan
  exact (FrameEntry.core_eq (hcore v)).1.trans huse

omit hK in
theorem Aside.updStats (f : Proc → Proc) (hf : ∀ q, (f q).bare = q.bare)
    (p : ProcId) (s : Kernel) : Aside s (s.updProc p f) :=
  .stats (s.updProc_field Proc.bare p (hf _))

/-- An eviction puts a page into the hand of its caller. -/
theorem Kept.evictPage (hR : Durable R) (hat : g.AtRest) :
    Triple G (fun n s => J g n s ∧ R s.swapDiskTable) evictPage
      fun r n s => J (g.grab r) n s ∧ R s.swapDiskTable := by
  refine .bind (M := fun _ n s => J g n s ∧ R s.swapDiskTable)
    (.get_bind fun s0 => .pure fun n s h => h.1) fun start => ?_
  refine .bind hK.selectVictim fun r => ?_
  cases r with
  | none => exact .pure fun n s h => h.1
  | some idx =>
    exact (hK.evictFrame hR hat idx).pre fun n s h => ⟨h.1.1, h.1.2, h.2 idx rfl⟩

/-- A page from the allocator or from an eviction. -/
theorem Kept.kallocOrEvict (hR : Durable R) (hat : g.AtRest) :
    Triple G (fun n s => J g n s ∧ R s.swapDiskTable) kallocOrEvict
      fun r n s => J (g.grab r) n s ∧ R s.swapDiskTable := by
  refine .bind ((hK.kalloc g).keep keeps_kalloc R) fun r => ?_
  cases r with
  | none => exact hK.evictPage hR hat
  | some pa => exact .pure fun n s h => h

-- ======== swap-in

omit hK in
theorem Kept.pagetableOf (p : ProcId) {P : Notes Mark Kernel → Kernel → Prop} :
    Triple G P (pagetableOf p) fun root n s => P n s ∧ (s.proc p).pagetable = some root := by
  intro n s root s' t hP hrun _
  obtain ⟨rfl, rfl, hpt⟩ := pagetableOf_ok hrun
  rw [List.append_nil]
  exact ⟨hP, hpt⟩

theorem Kept.countFault (p : ProcId) : Triple G (J g) (countFault p) fun _ => J g := by
  refine hK.aside (Aside.updStats _ ?_ p)
  exact fun _ => rfl

variable (hat : g.AtRest)

include hat

/-- The end of a swap-in and of a fault: the page is mapped, registered
and counted, or given back. In a swap-in the PTE is pending. -/
theorem Kept.bringIn {α : Type} {pa perm : Nat} {x : Option (ProcId × Nat)} {f : Proc → Proc}
    {a b : α} (hx : x = none ∨ x = some (p, va))
    (hva : va < trapframeVa) (hperm : perm < 1024) (hf : Counts f 1) :
    Triple G (fun n s => J { g.grab (some pa) with pending := x } n s
        ∧ (s.proc p).pagetable = some root ∧ va < (s.proc p).sz)
      (do
        if (← GemOS.mappages root va pgsize pa perm) ≠ 0 then
          GemOS.kfree pa
          return a
        else
          updateFrameTable p va pa
          modify fun s => s.updProc p f
          return b)
      fun _ => J g := by
  have hg : { g with pending := none } = g := by
    rw [← hat.pending]
  have hatt : ∀ {s : Kernel}, (s.proc p).pagetable = some root →
      Attached { g.grab (some pa) with pending := x } s p root :=
    fun h => ⟨hat.alive _, h⟩
  rintro n s r s' t ⟨hJ, hpt, hsz⟩ hrun hG
  obtain ⟨c, s1, t1, t2, hmap, hrest, rfl⟩ := bind_ok hrun
  have hwalk := (hK.walk { g.grab (some pa) with pending := x } root va
    true).keep (keeps_proc (beside_walk root va true)) fun proc =>
      (proc p).pagetable = some root ∧ va < (proc p).sz
  obtain ⟨halign, ⟨rfl, s2, hw, hV, rfl, rfl⟩ | ⟨rfl, hw⟩⟩ := mappages_cases hmap
  · obtain ⟨⟨hJ2, hlive, -, hmid, -⟩, hpt2, hsz2⟩ := hwalk ⟨hJ, hpt, hsz⟩ hw (by simp)
    rw [List.append_nil] at hJ2
    cases hrest
    have hJ3 := hK.move hJ2 (.bring rfl hx (hatt hpt2) hsz2 (hmid rfl) hva halign hV hperm hf) hG
    rw [← hg]
    exact hJ3
  · obtain ⟨⟨hJ1, -, -, -, hpte⟩, hpt1, -⟩ :=
      hwalk ⟨hJ, hpt, hsz⟩ hw fun y hy => hG y (List.mem_append_left _ hy)
    have hback : J (g.grab (some pa)) (n ++ t1) s1 := by
      have hg' : { g.grab (some pa) with pending := none } = g.grab (some pa) := by
        rw [← hat.pending]
        rfl
      rw [← hg']
      rcases hx with rfl | rfl
      · exact hJ1
      · exact hK.quiet hJ1 (.abandon rfl (hatt hpt1) (hpte rfl))
    rw [if_pos (by decide)] at hrest
    obtain ⟨_, s2, t3, t4, hk, hret, rfl⟩ := bind_ok hrest
    cases hret
    rw [List.append_nil, ← List.append_assoc]
    exact hK.kfree g pa hback hk fun y hy => hG y (by simp [hy])

/-- Between clearing the swap entry and mapping the page the PTE is
pending. -/
theorem Kept.swapPageIn (hva : va < trapframeVa) :
    Triple G (fun n s => J g n s ∧ va < (s.proc p).sz) (swapPageIn p va) fun _ => J g := by
  refine .get_bind fun s0 => ?_
  cases hslot : s0.swapSlotOf p va with
  | none => exact .pure fun n s h => h.1.1
  | some slot =>
    obtain ⟨huse, hown, hvaddr⟩ := swapSlotOf_spec hslot
    have hkeep : Durable fun swaps => swaps slot = s0.swapDiskTable slot := durable_entry huse
    refine .bind (((hK.kallocOrEvict hkeep hat).keep
      spaces_kallocOrEvict fun sp => va < (sp p).sz).pre ?_) fun r => ?_
    · rintro n s ⟨⟨hJ, hsz⟩, rfl⟩
      exact ⟨⟨hJ, rfl⟩, hsz⟩
    cases r with
    | none => exact .pure fun n s h => h.1.1
    | some newPa =>
      refine .bind ((hK.submitRequest fun _ _ swaps =>
        swaps slot = s0.swapDiskTable slot).keep
        (spaces_submitRequest ..) fun sp => va < (sp p).sz) fun r => ?_
      refine .ite (fun _ => ?_) fun _ => ?_
      · exact .bind ((hK.kfree g newPa).pre fun n s h => h.1.1) fun _ => .pure fun n s h => h
      -- the entry is cleared: from here to the mapping the PTE is pending
      refine .bind (M := fun _ n s => J { g.grab (some newPa) with
        pending := some (p, va) } n s ∧ va < (s.proc p).sz) (.modify ?_)
        fun _ => ?_
      · rintro n s ⟨⟨hJ, hentry⟩, hsz⟩
        exact ⟨hK.quiet hJ (.unswap hat.pending (hentry ▸ huse) (hentry ▸ hown)
          (hentry ▸ hvaddr)), hsz⟩
      refine .bind (Kept.pagetableOf p) fun root => ?_
      refine (hK.bringIn hat (.inr rfl) hva (by decide) ?_).pre
        fun n s h => ⟨h.1.1, h.2, h.1.2⟩
      exact fun _ => rfl

-- ======== faults

/-- A lazy fault maps below the size. -/
theorem Kept.faultIn (hva : va < trapframeVa) :
    Triple G (fun n s => J g n s ∧ va < (s.proc me).sz) (faultIn me va) fun _ => J g := by
  refine .bind ((hK.countFault me).keep (spaces_countFault me)
    fun sp => va < (sp me).sz) fun _ => ?_
  refine .bind (((hK.kallocOrEvict durable_true hat).keep
    spaces_kallocOrEvict fun sp => va < (sp me).sz).pre
    fun n s h => ⟨⟨h.1, trivial⟩, h.2⟩) fun r => ?_
  cases r with
  | none => exact .pure fun n s h => h.1.1
  | some mem =>
    refine .bind (M := fun _ n s => J (g.grab (some mem)) n s
      ∧ va < (s.proc me).sz) (.modify fun n s h => ?_) fun _ => ?_
    · exact ⟨hK.quiet h.1.1 (.aside (.mem s _)), h.2⟩
    refine .bind (Kept.pagetableOf me) fun root => ?_
    have hg : { g.grab (some mem) with pending := none } = g.grab (some mem) := by
      rw [← hat.pending]
      rfl
    refine (hK.bringIn hat (.inl rfl) hva (by decide) ?_).pre
      fun n s h => ⟨hg ▸ h.1.1, h.2, h.1.2⟩
    exact fun _ => rfl

theorem Kept.faultOrTouch (hva : va < trapframeVa) :
    Triple G (fun n s => J g n s ∧ va < (s.proc me).sz) (faultOrTouch me root va) fun _ => J g := by
  refine .bind (hK.ismapped.keep (f := Kernel.spaces) (keeps_ismapped ..)
    fun sp => va < (sp me).sz) fun b => .ite (fun hb => ?_) fun _ => ?_
  · refine .bind (.modify fun n s h => ?_) fun _ => .pure fun n s h => h
    exact hK.quiet h.1.1 (.touch hva (h.1.2 hb))
  · exact (hK.faultIn hat hva).pre fun n s h => ⟨h.1.1, h.2⟩

/-- A fault is one or several moves of the page machine. -/
theorem Kept.vmfault : Triple G (J g) (vmfault me root va) fun _ => J g := by
  refine .get_bind fun s0 => .ite (fun _ => .pure fun n s h => h.1) fun hlt => ?_
  refine .of_pre (c := pgrounddown va < (s0.proc me).sz
    ∧ pgrounddown va < trapframeVa) ?_ fun hva => ?_
  · rintro n s ⟨hJ, rfl⟩
    have := (hK.own hJ).sz me
    have := Nat.div_mul_le_self va pgsize
    unfold pgrounddown
    omega
  have htouch : Triple G (fun n s => J g n s ∧ pgrounddown va < (s.proc me).sz)
      (GemOS.faultOrTouch me root (pgrounddown va)) fun _ => J g :=
    hK.faultOrTouch hat hva.2
  refine .bind (M := fun _ n s => J g n s ∧ pgrounddown va < (s.proc me).sz)
    ?_ fun b => .get_bind fun s1 => ?_
  · rintro n s b s' t ⟨hJ, rfl⟩ hrun hG
    obtain ⟨rfl, rfl, -⟩ := walk_lookup hrun
    rw [List.append_nil]
    exact ⟨hJ, hva.1⟩
  refine .ite (fun _ => ?_) fun _ => htouch.pre fun n s h => h.1
  refine .bind (((hK.swapPageIn hat hva.2).keep (spaces_swapPageIn ..)
    fun sp => pgrounddown va < (sp me).sz).pre fun n s h => ⟨h.1, h.1.2⟩)
    fun r => .ite (fun _ => ?_) fun _ => htouch
  exact .bind ((hK.countFault me).pre fun n s h => h.1) fun _ => .pure fun n s h => h

-- ======== user copies

/-- User copies change bytes, and pages by faults. -/
theorem Kept.copyoutLoop (fuel : Nat) : ∀ {dstva : Nat} {src : List UInt8},
    Triple G (J g) (copyoutLoop me root fuel dstva src) fun _ => J g := by
  induction fuel with
  | zero => intro dstva src; exact .pure fun n s h => h
  | succ fuel ih =>
    intro dstva src
    refine .ite (fun _ => .pure fun n s h => h) fun _ =>
      .ite (fun _ => .pure fun n s h => h) fun _ => ?_
    refine .bind hK.walkaddr fun pa =>
      .ite (fun _ => .bind (hK.vmfault hat) fun pa => ?_) fun _ =>
        .bind (M := fun _ => J g) (.pure fun n s h => h) fun pa => ?_
    -- the rest is the same whether the page was there or had to be faulted in
    all_goals
      refine .ite (fun _ => .pure fun n s h => h) fun _ => ?_
      refine .bind ((hK.walk g root _ false).post fun _ _ _ h => h.1)
        fun b => .ite (fun _ => .get_bind fun s0 => ?_) fun _ => .fault
      refine .ite (fun _ => ?_) fun _ => .pure fun n s h => h.1
      exact .bind ((hK.aside fun s => .mem s _).pre fun n s h => h.1) fun _ => ih

theorem Kept.copyout {dstva : Nat} {src : List UInt8} :
    Triple G (J g) (copyout me root dstva src) fun _ => J g :=
  hK.copyoutLoop hat _

theorem Kept.copyinLoop (fuel : Nat) : ∀ {srcva len : Nat},
    Triple G (J g) (copyinLoop me root fuel srcva len) fun _ => J g := by
  induction fuel with
  | zero => intro srcva len; exact .pure fun n s h => h
  | succ fuel ih =>
    intro srcva len
    refine .ite (fun _ => .pure fun n s h => h) fun _ => ?_
    refine .bind hK.walkaddr fun pa =>
      .ite (fun _ => .bind (hK.vmfault hat) fun pa => ?_) fun _ =>
        .bind (M := fun _ => J g) (.pure fun n s h => h) fun pa => ?_
    all_goals
      refine .ite (fun _ => .pure fun n s h => h) fun _ => .get_bind fun s0 => ?_
      refine .bind (ih.pre fun n s h => h.1) fun r => ?_
      cases r with
      | none => exact .pure fun n s h => h
      | some rest => exact .pure fun n s h => h

theorem Kept.copyin {srcva len : Nat} : Triple G (J g) (copyin me root srcva len) fun _ => J g :=
  hK.copyinLoop hat _

end GemOS
