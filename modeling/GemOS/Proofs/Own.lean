/-
Every move keeps the ownership invariant.

A move that carries a page from one use to another is two steps here: the
page is dropped from the old use, which leaves it `Unowned`, and gained
by the new one. There is one lemma for each way to drop and for each way
to gain; the moves put them together.
-/
import GemOS.Proofs.Moves

namespace GemOS

open Function Prog

-- ======== page tables

@[simp, grind =] theorem setLeaf_dir (t : PageTable) (v w : Nat) : (t.setLeaf v w).dir = t.dir := by
  unfold PageTable.setLeaf
  split <;> rfl

@[simp, grind =] theorem setLeaf_mid (t : PageTable) (v w : Nat) : (t.setLeaf v w).mid = t.mid := by
  unfold PageTable.setLeaf
  split <;> rfl

/-- What a store to a PTE can have done to a leaf. -/
theorem setLeaf_leaf_cases (t : PageTable) (v w v' : Nat) : (t.setLeaf v w).leaf v' = t.leaf v'
      ∨ (v' = v ∧ (t.setLeaf v w).leaf v' = w) := by
  unfold PageTable.setLeaf
  split
  · exact .inl rfl
  · grind [update_apply]

/-- A store to a table that has no leaves changes nothing. -/
@[grind =] theorem setLeaf_dead (v w : Nat) : PageTable.dead.setLeaf v w = .dead := by
  unfold PageTable.setLeaf
  exact dif_pos rfl

section tables

variable (s : Kernel) (root va w r : Nat)

@[grind =] theorem Kernel.setTable_pagetables (t : PageTable) : (s.setTable root t).pagetables r
      = if r = root then t else s.pagetables r := update_apply ..

@[grind =] theorem Kernel.memset_pagetables (pa : Nat) (c : UInt8) :
    (s.memset pa c).pagetables = s.pagetables := rfl

@[grind =] theorem Kernel.setLeaf_pagetables : (s.setLeaf root va w).pagetables r = if r = root
      then (s.pagetables root).setLeaf (va >>> 12) w else s.pagetables r :=
  s.setTable_pagetables ..

/-- What a store to a leaf leaves of a table. -/
theorem Kernel.setLeaf_field {β : Type} (f : PageTable → β)
    (hf : ∀ t : PageTable, f (t.setLeaf (va >>> 12) w) = f t) :
    f ((s.setLeaf root va w).pagetables r) = f (s.pagetables r) := by
  rw [Kernel.setLeaf_pagetables]
  split_ifs with hr
  · rw [hf, hr]
  · rfl

@[simp] theorem Kernel.setLeaf_live :
    ((s.setLeaf root va w).pagetables r).live = (s.pagetables r).live :=
  s.setLeaf_field root va w r PageTable.live fun t => GemOS.setLeaf_live t ..

@[simp] theorem Kernel.setLeaf_dir :
    ((s.setLeaf root va w).pagetables r).dir = (s.pagetables r).dir :=
  s.setLeaf_field root va w r PageTable.dir fun t => GemOS.setLeaf_dir t ..

@[simp] theorem Kernel.setLeaf_mid :
    ((s.setLeaf root va w).pagetables r).mid = (s.pagetables r).mid :=
  s.setLeaf_field root va w r PageTable.mid fun t => GemOS.setLeaf_mid t ..

/-- A leaf after a store is what it was, unless it is the one stored
to. -/
theorem Kernel.setLeaf_leaf_cases (v : Nat) :
    ((s.setLeaf root va w).pagetables r).leaf v = (s.pagetables r).leaf v
      ∨ (r = root ∧ v = va >>> 12 ∧ ((s.setLeaf root va w).pagetables r).leaf v = w) := by
  grind [GemOS.setLeaf_leaf_cases]

variable {s root va w r}

theorem Kernel.setLeaf_leaf_of_ne {v : Nat} (h : r ≠ root ∨ v ≠ va >>> 12) :
    ((s.setLeaf root va w).pagetables r).leaf v = (s.pagetables r).leaf v := by
  grind [Kernel.setLeaf_leaf_cases]

theorem Kernel.setLeaf_leaf_self (hmid : ((s.pagetables root).mid (va >>> 21)).isSome) :
    ((s.setLeaf root va w).pagetables root).leaf (va >>> 12) = w :=
  pte_setLeaf_self w hmid

end tables

variable {g g' : Ghost} {s s' : Kernel} {u u0 : Use} {p : ProcId}
  {root va w pa : Nat} {rest : List Nat} {t : PageTable} {m : Nat → Page}

/-- A table that differs in its interior only. -/
theorem Kernel.setTable_leaf (hleaf : ∀ v, t.leaf v = (s.pagetables root).leaf v) (r v : Nat) :
    ((s.setTable root t).pagetables r).leaf v = (s.pagetables r).leaf v := by
  rw [Kernel.setTable_pagetables]
  split_ifs with hr
  · rw [hleaf, hr]
  · rfl

-- ======== the uses of pages

theorem Idle.congr (h : Idle s) (hhead : s'.diskQueueHead = s.diskQueueHead)
    (htail : s'.diskQueueTail = s.diskQueueTail) : Idle s' := by
  obtain ⟨h1, h2⟩ := idle_iff.mp h
  exact idle_iff.mpr ⟨hhead.trans h1, htail.trans h2⟩

theorem Fixed.congr {root' : Nat} (h : Fixed s p root) (htramp : s'.trampoline = s.trampoline)
    (htf : (s'.proc p).trapframe = (s.proc p).trapframe)
    (hleaf : ∀ v, userPages ≤ v → (s'.pagetables root').leaf v
      = (s.pagetables root).leaf v) : Fixed s' p root' := by
  constructor
  · rw [hleaf _ (by omega), htramp]
    exact h.trampoline
  · rw [hleaf _ le_rfl, htf]
    exact h.trapframe

/-- What a store to a PTE leaves in use. -/
theorem holds_setLeaf (h : Holds g (s.setLeaf root va w) u pa) :
    Holds g s u pa ∨ (u = .leaf root (va >>> 12) ∧ isV w = true ∧ pte2pa w = pa) := by
  cases u with
  | leaf r v =>
    rcases s.setLeaf_leaf_cases root va w r v with heq | ⟨rfl, rfl, heq⟩
    · grind [Holds]
    · grind [Holds]
  | root r => exact .inl ⟨h.1, (s.setLeaf_live root va w r).symm.trans h.2⟩
  | dir r i => grind [Holds]
  | mid r j => grind [Holds]
  | free | held | hand | trapframe p => exact .inl h

/-- The uses of a page by tables, when one table is replaced by one with
the same leaves. -/
theorem holds_setTable {a : Nat} (hleaf' : t.leaf = (s.pagetables root).leaf)
    (hlive' : t.live = (s.pagetables root).live)
    (h : Holds g ((s.memset pa 0).setTable root t) u a) :
    Holds g s u a ∨ (∃ i, u = .dir root i ∧ t.dir i = some a)
      ∨ ∃ j, u = .mid root j ∧ t.mid j = some a := by
  cases u with
  | root | leaf | dir | mid => grind [Holds]
  | free | held | hand | trapframe p => exact .inl h

theorem mem_pages (h : pa ∈ t.pages root) :
    pa = root ∨ (∃ i, t.dir i = some pa) ∨ ∃ j, t.mid j = some pa := by
  rcases List.mem_append.mp h with h | h
  · grind [ List.mem_singleton]
  · exact .inl (List.mem_singleton.mp h)

/-- The pages of a table are distinct when their uses are. -/
theorem pages_nodup (hdir : ∀ i i' pa, t.dir i = some pa → t.dir i' = some pa → i = i')
    (hmid : ∀ j j' pa, t.mid j = some pa → t.mid j' = some pa → j = j')
    (hdm : ∀ i j pa, t.dir i = some pa → t.mid j ≠ some pa)
    (hdr : ∀ i, t.dir i ≠ some root) (hmr : ∀ j, t.mid j ≠ some root) : (t.pages root).Nodup := by
  unfold PageTable.pages
  refine List.nodup_append.mpr ⟨?_, List.nodup_singleton _, ?_⟩
  · refine List.nodup_flatMap.mpr ⟨fun i _ => ?_, ?_⟩
    · cases hd : t.dir i with
      | none => exact List.nodup_nil
      | some l1 =>
        refine List.nodup_append.mpr ⟨?_, List.nodup_singleton _, ?_⟩
        · grind [List.Nodup.filterMap, List.nodup_range]
        · grind [List.mem_singleton]
    · refine (List.nodup_range (n := 512)).imp ?_
      intro i i' hne pa hpa hpa'
      -- an entry contributes its own page and those below it
      cases hd : t.dir i with
      | none => simp [hd] at hpa
      | some l1 =>
        cases hd' : t.dir i' with
        | none => simp [hd'] at hpa'
        | some l1' =>
          simp only [hd, hd', List.mem_append, List.mem_filterMap, List.mem_range,
            List.mem_singleton] at hpa hpa'
          rcases hpa with ⟨j, hj, hpa⟩ | rfl
          · rcases hpa' with ⟨j', hj', hpa'⟩ | rfl
            · have := hmid _ _ _ hpa hpa'
              omega
            · exact hdm _ _ _ hd' hpa
          · rcases hpa' with ⟨j', hj', hpa'⟩ | rfl
            · exact hdm _ _ _ hd hpa'
            · exact hne (hdir _ _ _ hd hd')
  · grind [List.mem_singleton]

-- ======== no owner

/-- A page above the image that nothing uses. -/
structure Unowned (g : Ghost) (s : Kernel) (pa : Nat) : Prop where
  unused : ∀ u, ¬ Holds g s u pa
  ram : RamPage pa
  kend : s.kend ≤ pa

/-- An unowned page is in no list. -/
theorem Unowned.notMem (hfree : Unowned g s pa) : pa ∉ s.freelist ++ s.held ++ g.hand := by
  intro hin
  rcases List.mem_append.mp hin with hin | hin
  · rcases List.mem_append.mp hin with hin | hin
    · exact hfree.unused .free hin
    · exact hfree.unused .held hin
  · exact hfree.unused .hand hin

/-- Where a page went when the rest of the kernel had its turn. -/
def Use.turn (free : List Nat) (pa : Nat) : Use → Use
  | .free | .held => if pa ∈ free then .free else .held
  | u => u

variable (h : Own g s)

include h

/-- A page with one use loses it. -/
theorem Own.unowned (h0 : Holds g s u pa) (hkend : s'.kend = s.kend)
    (hsub : ∀ v a, Holds g' s' v a → Holds g s v a)
    (hgone : ¬ Holds g' s' u pa) : Unowned g' s' pa := by
  obtain ⟨hram, hk⟩ := h.ram u pa h0
  refine ⟨fun v hv => ?_, hram, hkend ▸ hk⟩
  rw [h.exclusive (hsub v pa hv) h0] at hv
  exact hgone hv

/-- The part of the invariant about pages, when nothing is gained. -/
theorem Own.ram_mono (hkend : s'.kend = s.kend) (hsub : ∀ u a, Holds g' s' u a → Holds g s u a) :
    ∀ u pa, Holds g' s' u pa → RamPage pa ∧ s'.kend ≤ pa := by
  grind [h.ram]

/-- The same when one unowned page is gained. -/
theorem Own.ram_gain (hkend : s'.kend = s.kend) (hfree : Unowned g s pa)
    (hgain : ∀ u a, Holds g' s' u a → (u = u0 ∧ a = pa) ∨ Holds g s u a) :
    ∀ u pa, Holds g' s' u pa → RamPage pa ∧ s'.kend ≤ pa := by
  grind [h.ram, hfree.ram, hfree.kend]

/-- A change of the page lists and of what is in hand. -/
theorem Own.lists {hand fl hd : List Nat} (hex : Exclusive (Holds { g with hand := hand }
      { s with freelist := fl, held := hd, mem := m }))
    (hram : ∀ u pa, Holds { g with hand := hand }
      { s with freelist := fl, held := hd, mem := m } u pa → RamPage pa ∧ s.kend ≤ pa)
    (hnd : (fl ++ hd ++ hand).Nodup) : Own { g with hand := hand }
      { s with freelist := fl, held := hd, mem := m } :=
  { h with
    exclusive := hex
    ram := hram
    nodup := hnd
    attached := fun p root ha =>
      let ⟨h1, h2, h3⟩ := h.attached p root ha
      ⟨h1, h2.congr rfl rfl fun _ _ => rfl, h3⟩
    spare := fun root x hx =>
      let ⟨h1, h2⟩ := h.spare root x hx
      ⟨h1, fun p hp => (h2 p hp).congr rfl rfl fun _ _ => rfl⟩
    idle := h.idle.congr rfl rfl }

/-- A change of the tables and of which one is spare. The tables of
processes keep what they map above the user pages. -/
theorem Own.retable {x : Option (Nat × Option ProcId)} {T : Nat → PageTable}
    (hex : Exclusive (Holds { g with spare := x }
      { s with pagetables := T, mem := m }))
    (hram : ∀ u pa, Holds { g with spare := x } { s with pagetables := T, mem := m } u pa →
      RamPage pa ∧ s.kend ≤ pa)
    (hdead : ∀ r, (T r).live = false → T r = .dead)
    (htop : ∀ r v, userPages + 2 ≤ v → (T r).leaf v = 0)
    (hatt : ∀ p r, Attached g s p r → (T r).live = (s.pagetables r).live
      ∧ (∀ v, userPages ≤ v → (T r).leaf v = (s.pagetables r).leaf v)
      ∧ ∀ y, x ≠ some (r, y))
    (hspare : ∀ r y, x = some (r, y) → (T r).live = true
      ∧ ∀ p, y = some p → Fixed { s with pagetables := T, mem := m } p r) :
    Own { g with spare := x } { s with pagetables := T, mem := m } :=
  { h with
    exclusive := hex
    ram := hram
    dead := hdead
    top := htop
    attached := fun p r hp =>
      let ⟨hlive, hleaf, hne⟩ := hatt p r hp
      let ⟨h1, h2, _⟩ := h.attached p r hp
      ⟨hlive.trans h1, h2.congr rfl rfl hleaf, hne⟩
    spare := hspare
    idle := h.idle.congr rfl rfl }

/-- A store to a user PTE. -/
theorem Own.setLeaf (hva : va < trapframeVa) (hex : Exclusive (Holds g (s.setLeaf root va w)))
    (hram : ∀ u pa, Holds g (s.setLeaf root va w) u pa → RamPage pa ∧ s.kend ≤ pa) :
    Own g (s.setLeaf root va w) := by
  have hv := vpn_lt hva
  have hleaf : ∀ r v, userPages ≤ v → ((s.setLeaf root va w).pagetables r).leaf v
        = (s.pagetables r).leaf v :=
    fun r v hv' => Kernel.setLeaf_leaf_of_ne (.inr (by omega))
  refine h.retable (x := g.spare) (m := s.mem) hex hram ?_ ?_ ?_ ?_
  · intro r hr
    have := h.dead r ((s.setLeaf_live root va w r).symm.trans hr)
    have := s.setLeaf_pagetables root va w r
    grind
  · exact fun r v hv' => (hleaf r v (by omega)).trans (h.top r v hv')
  · exact fun p r hp => ⟨s.setLeaf_live .., hleaf r, (h.attached p r hp).2.2⟩
  · intro r x hx
    obtain ⟨h1, h2⟩ := h.spare r x hx
    exact ⟨(s.setLeaf_live ..).trans h1, fun p hp => (h2 p hp).congr rfl rfl (hleaf r)⟩

-- ======== dropping

theorem Own.dropFree (hfree : s.freelist = pa :: rest) :
    Own g (s.popped pa rest) ∧ Unowned g (s.popped pa rest) pa := by
  have hnd := h.nodup
  rw [hfree, List.append_assoc, List.cons_append] at hnd
  obtain ⟨hpa, hrest⟩ := List.nodup_cons.mp hnd
  have hsub : ∀ u a, Holds g (s.popped pa rest) u a → Holds g s u a := by
    intro u a hu
    cases u with
    | free => grind [Holds, Kernel.popped]
    | _ => exact hu
  refine ⟨h.lists (h.exclusive.mono hsub) (h.ram_mono rfl hsub) ?_, ?_⟩
  · rw [List.append_assoc]
    exact hrest
  · refine h.unowned (u := .free) ?_ rfl hsub fun hin => ?_
    · show pa ∈ s.freelist
      exact hfree ▸ List.mem_cons_self ..
    · exact hpa (List.mem_append_left _ hin)

theorem Own.dropHand (hhand : g.hand = pa :: rest) :
    Own { g with hand := rest } s ∧ Unowned { g with hand := rest } s pa := by
  have hnd := h.nodup
  rw [hhand] at hnd
  have hsub : ∀ u a, Holds { g with hand := rest } s u a → Holds g s u a := by
    intro u a hu
    cases u with
    | hand => grind [Holds]
    | _ => exact hu
  refine ⟨h.lists (h.exclusive.mono hsub) (h.ram_mono rfl hsub) ?_, ?_⟩
  · exact hnd.sublist (List.Sublist.append_left (List.sublist_cons_self ..) _)
  · refine h.unowned (u := .hand) ?_ rfl hsub fun hin => ?_
    · show pa ∈ g.hand
      exact hhand ▸ List.mem_cons_self ..
    · exact (List.nodup_cons.mp hnd.of_append_right).1 hin

/-- Writing an invalid word; the page that was mapped is left over. -/
theorem Own.dropLeaf (root : Nat) (hva : va < trapframeVa) (hw : isV w = false) :
    Own g (s.setLeaf root va w) ∧ (((s.pagetables root).mid (va >>> 21)).isSome →
        isV (s.pte root va) = true → Unowned g (s.setLeaf root va w) (pte2pa (s.pte root va))) := by
  have hsub : ∀ u a, Holds g (s.setLeaf root va w) u a → Holds g s u a := by
    intro u a hu
    have := holds_setLeaf hu
    grind
  refine ⟨h.setLeaf hva (h.exclusive.mono hsub) (h.ram_mono rfl hsub), ?_⟩
  intro hmid hV
  refine h.unowned (u := .leaf root (va >>> 12)) ⟨vpn_lt hva, hV, rfl⟩ rfl hsub ?_
  rintro ⟨-, hV', -⟩
  rw [Kernel.setLeaf_leaf_self hmid, hw] at hV'
  cases hV'

-- ======== gaining

theorem Own.gainFree (hfree : Unowned g s pa) : Own g (s.push pa) := by
  have hgain : ∀ u a, Holds g (s.push pa) u a → (u = .free ∧ a = pa) ∨ Holds g s u a := by
    intro u a hu
    cases u with
    | free => grind [Holds, Kernel.push]
    | _ => exact .inr hu
  exact h.lists (h.exclusive.gain hfree.unused hgain) (h.ram_gain rfl hfree hgain)
    (List.nodup_cons.mpr ⟨hfree.notMem, h.nodup⟩)

theorem Own.gainHand (hfree : Unowned g s pa) : Own { g with hand := pa :: g.hand } s := by
  have hgain : ∀ u a, Holds { g with hand := pa :: g.hand } s u a →
      (u = .hand ∧ a = pa) ∨ Holds g s u a := by
    intro u a hu
    cases u with
    | hand => grind [Holds]
    | _ => exact .inr hu
  refine h.lists (h.exclusive.gain hfree.unused hgain) (h.ram_gain rfl hfree hgain) ?_
  exact List.perm_middle.nodup_iff.mpr (List.nodup_cons.mpr ⟨hfree.notMem, h.nodup⟩)

/-- Mapping an unowned page. -/
theorem Own.gainLeaf {perm : Nat} (hfree : Unowned g s pa)
    (hva : va < trapframeVa) (hperm : perm < 1024) :
    Own g (s.setLeaf root va (pa2pte pa ||| perm ||| pteV)) := by
  have hpa : pte2pa (pa2pte pa ||| perm ||| pteV) = pa :=
    pte2pa_mapped hfree.ram.1 hfree.ram.2.2 hperm
  have hgain : ∀ u a, Holds g (s.setLeaf root va (pa2pte pa ||| perm ||| pteV)) u a →
      (u = .leaf root (va >>> 12) ∧ a = pa) ∨ Holds g s u a := by
    intro u a hu
    rcases holds_setLeaf hu with hu | ⟨hu, -, ha⟩
    · exact .inr hu
    · exact .inl ⟨hu, by rw [← ha, hpa]⟩
  exact h.setLeaf hva (h.exclusive.gain hfree.unused hgain) (h.ram_gain rfl hfree hgain)

/-- A word that maps the same page, or none, as before. -/
theorem Own.rewriteLeaf (hva : va < trapframeVa) (hV : isV w = isV (s.pte root va))
    (hpa : pte2pa w = pte2pa (s.pte root va)) : Own g (s.setLeaf root va w) := by
  have hsub : ∀ u a, Holds g (s.setLeaf root va w) u a → Holds g s u a := by
    intro u a hu
    rcases holds_setLeaf hu with hu | ⟨rfl, hw, ha⟩
    · exact hu
    · exact ⟨vpn_lt hva, hV ▸ hw, hpa ▸ ha⟩
  exact h.setLeaf hva (h.exclusive.mono hsub) (h.ram_mono rfl hsub)

-- ======== steady

theorem Own.steady (ha : Steady s s') : Own g s' := by
  have hnd : (s'.freelist ++ s'.held).Nodup := ha.pages.nodup_iff.mpr h.nodup.of_append_left
  have hback : ∀ u a, Holds g s' u a → ∃ v, Holds g s v a ∧ v.turn s'.freelist a = u := by
    intro u a hu
    have hold : ∀ b, b ∈ s'.freelist ++ s'.held →
        Holds g s .free b ∨ Holds g s .held b := fun b hb =>
      List.mem_append.mp (ha.pages.mem_iff.mp hb)
    cases u with
    | free =>
        have ht : a ∈ s'.freelist := hu
        rcases hold a (List.mem_append_left _ hu) with hv | hv
        · exact ⟨.free, hv, if_pos ht⟩
        · exact ⟨.held, hv, if_pos ht⟩
    | held =>
        have ht : a ∉ s'.freelist := fun hin => List.disjoint_of_nodup_append hnd hin hu
        rcases hold a (List.mem_append_right _ hu) with hv | hv
        · exact ⟨.free, hv, if_neg ht⟩
        · exact ⟨.held, hv, if_neg ht⟩
    | hand => exact ⟨.hand, hu, rfl⟩
    | root r => exact ⟨.root r, by rwa [Holds, ← ha.tables], rfl⟩
    | dir r i => exact ⟨.dir r i, by rwa [Holds, ← ha.tables], rfl⟩
    | mid r j => exact ⟨.mid r j, by rwa [Holds, ← ha.tables], rfl⟩
    | leaf r v => exact ⟨.leaf r v, by rwa [Holds, ← ha.tables], rfl⟩
    | trapframe p => exact ⟨.trapframe p, by rwa [Holds, ← ha.trapframe], rfl⟩
  have hfixed : ∀ p root, Fixed s p root → Fixed s' p root := fun p root hf =>
    hf.congr ha.trampoline (ha.trapframe p) fun _ _ => by rw [ha.tables]
  have hatt : ∀ p root, Attached g s' p root → Attached g s p root :=
    fun p root hp => ⟨hp.1, ha.pagetable p ▸ hp.2⟩
  refine
    { image := by rw [ha.kend, ha.trampoline]; exact h.image
      exclusive := h.exclusive.transfer (fun u pa => u.turn s'.freelist pa) hback
      ram := by grind [ha.kend, h.ram]
      nodup := (ha.pages.append_right g.hand).nodup_iff.mpr h.nodup
      dead := by rw [ha.tables]; exact h.dead
      top := by rw [ha.tables]; exact h.top
      attached := by rw [ha.tables]; grind [h.attached]
      apart := fun p q root hp hq => h.apart p q root (hatt _ _ hp) (hatt _ _ hq)
      spare := by rw [ha.tables]; grind [h.spare]
      procs := fun p hp => ha.procs p (h.procs p hp)
      sz := fun p => by rw [ha.sz]; exact h.sz p
      frames := ?_
      idle := ha.idle h.idle }
  intro i hi
  obtain ⟨huse, -, hvaddr, -⟩ := FrameEntry.core_eq (ha.frames i)
  rw [hvaddr, Kernel.frameIndexToPa, Kernel.frameBase, ha.kend]
  exact h.frames i (huse ▸ hi)

-- ======== tables

/-- A change of one table that keeps its leaves. -/
theorem Own.relink (hlive : (s.pagetables root).live = true)
    (hleaf' : t.leaf = (s.pagetables root).leaf) (hlive' : t.live = (s.pagetables root).live)
    (hex : Exclusive (Holds g ((s.memset pa 0).setTable root t)))
    (hram : ∀ u a, Holds g ((s.memset pa 0).setTable root t) u a →
      RamPage a ∧ s.kend ≤ a) : Own g ((s.memset pa 0).setTable root t) := by
  have hsame := SameLeaves.update hleaf' hlive'
  refine h.retable (x := g.spare) (T := update s.pagetables root t) hex hram ?_ ?_ ?_ ?_
  · grind [update_apply, h.dead]
  · exact fun r v hv => (congrFun (hsame.leaf r) v).trans (h.top r v hv)
  · exact fun p r hp => ⟨hsame.live r, fun v _ => congrFun (hsame.leaf r) v,
      (h.attached p r hp).2.2⟩
  · intro r x hx
    obtain ⟨h1, h2⟩ := h.spare r x hx
    exact ⟨(hsame.live r).trans h1,
      fun p hp => (h2 p hp).congr rfl rfl fun v _ => congrFun (hsame.leaf r) v⟩

theorem Own.gainDir {i : Nat} (hfree : Unowned g s pa) (hlive : (s.pagetables root).live = true) :
    Own g ((s.memset pa 0).setTable root ((s.pagetables root).linkDir i pa)) := by
  have hgain : ∀ u a, Holds g ((s.memset pa 0).setTable root
      ((s.pagetables root).linkDir i pa)) u a → (u = .dir root i ∧ a = pa) ∨ Holds g s u a := by
    intro u a hu
    rcases holds_setTable (linkDir_leaf ..) (linkDir_live ..) hu with
      hu | ⟨i', rfl, hi'⟩ | ⟨j, rfl, hj⟩
    · exact .inr hu
    · change update (s.pagetables root).dir i (some pa) i' = some a at hi'
      grind [Holds, update_apply]
    · exact .inr hj
  exact h.relink hlive (linkDir_leaf ..) (linkDir_live ..)
    (h.exclusive.gain hfree.unused hgain) (h.ram_gain rfl hfree hgain)

theorem Own.gainMid {j : Nat} (hfree : Unowned g s pa) (hlive : (s.pagetables root).live = true) :
    Own g ((s.memset pa 0).setTable root ((s.pagetables root).linkMid j pa)) := by
  have hgain : ∀ u a, Holds g ((s.memset pa 0).setTable root
      ((s.pagetables root).linkMid j pa)) u a → (u = .mid root j ∧ a = pa) ∨ Holds g s u a := by
    intro u a hu
    rcases holds_setTable (linkMid_leaf ..) (linkMid_live ..) hu with
      hu | ⟨i, rfl, hi⟩ | ⟨j', rfl, hj'⟩
    · exact .inr hu
    · refine .inr ?_
      unfold PageTable.linkMid at hi
      split at hi <;> exact hi
    · unfold PageTable.linkMid at hj'
      split at hj'
      · exact .inr hj'
      · grind [Holds, update_apply]
  exact h.relink hlive (linkMid_leaf ..) (linkMid_live ..)
    (h.exclusive.gain hfree.unused hgain) (h.ram_gain rfl hfree hgain)

/-- A page becomes the root of an empty table. -/
theorem Own.gainRoot (hfree : Unowned g s root) :
    Own { g with spare := some (root, none) } ((s.memset root 0).setTable root .empty) := by
  have hdead : s.pagetables root = .dead := by
    refine h.dead root (Bool.eq_false_iff.mpr fun hlive => ?_)
    exact hfree.unused (.root root) ⟨rfl, hlive⟩
  -- every other table is as it was, and the old one held nothing
  have hgain : ∀ u a, Holds { g with spare := some (root, none) }
      ((s.memset root 0).setTable root .empty) u a →
      (u = .root root ∧ a = root) ∨ Holds g s u a := by
    intro u a hu
    cases u with
    | root | dir | mid | leaf => grind [Holds, PageTable.empty, isV_zero]
    | free | held | hand | trapframe p => exact .inr hu
  have hne : ∀ p r, Attached g s p r → r ≠ root := by
    rintro p r hp rfl
    have hlive := (h.attached p r hp).1
    rw [hdead] at hlive
    cases hlive
  refine h.retable (T := update s.pagetables root .empty)
    (h.exclusive.gain hfree.unused hgain) (h.ram_gain rfl hfree hgain) ?_ ?_ ?_ ?_
  · grind [update_apply, h.dead, PageTable.empty]
  · grind [update_apply, h.top, PageTable.empty]
  · grind [update_of_ne]
  · grind [update_self, PageTable.empty]

/-- The spare table is nobody's. -/
theorem Own.ne_spare {x : Option ProcId} (hspare : g.spare = some (root, x)) (p : ProcId) (r : Nat)
    (hp : Attached g s p r) : r ≠ root := by
  rintro rfl
  exact (h.attached p r hp).2.2 _ hspare

/-- A store outside the user pages of a spare table. -/
theorem Own.setFixed (hspare : g.spare = some (root, none))
    (hlo : trapframeVa ≤ va) (hhi : va < maxva) : Own g (s.setLeaf root va w) := by
  have hv : userPages ≤ va >>> 12 ∧ va >>> 12 < userPages + 2 := by
    grind [Nat.shiftRight_eq_div_pow]
  have hsub : ∀ u a, Holds g (s.setLeaf root va w) u a → Holds g s u a := by
    intro u a hu
    rcases holds_setLeaf hu with hu' | ⟨rfl, -⟩
    · exact hu'
    · have hlt : va >>> 12 < userPages := hu.1
      omega
  have hne := h.ne_spare hspare
  refine h.retable (x := g.spare) (m := s.mem) (h.exclusive.mono hsub)
    (h.ram_mono rfl hsub) ?_ ?_ ?_ ?_
  · grind [update_apply, h.dead, h.spare, GemOS.setLeaf_live]
  · exact fun r v hv' => (Kernel.setLeaf_leaf_of_ne (.inr (by omega))).trans (h.top r v hv')
  · exact fun p r hp => ⟨s.setLeaf_live .., fun v _ =>
      Kernel.setLeaf_leaf_of_ne (.inl (hne p r hp)), (h.attached p r hp).2.2⟩
  · intro r x hx
    obtain ⟨rfl, rfl⟩ : root = r ∧ none = x := by
      simpa using hspare.symm.trans hx
    exact ⟨(s.setLeaf_live ..).trans (h.spare root _ hspare).1, nofun⟩

-- ======== freeing a table

/-- The pages of a table that is given up are left over. -/
theorem Own.dropTable (hspare : g.spare = some (root, none)) :
    Own { g with spare := none } { s with pagetables := update s.pagetables root .dead }
      ∧ ∀ pa u, Holds g s u pa → (u = .root root ∨ (∃ i, u = .dir root i) ∨ ∃ j, u = .mid root j) →
        Unowned { g with spare := none } { s with pagetables := update s.pagetables root .dead }
          pa := by
  have hsub : ∀ u pa, Holds { g with spare := none }
      { s with pagetables := update s.pagetables root .dead } u pa →
      Holds g s u pa ∧ u ≠ .root root ∧ (∀ i, u ≠ .dir root i) ∧ ∀ j, u ≠ .mid root j := by
    intro u pa hu
    cases u with
    | root | dir | mid | leaf =>
      grind [Holds, update_apply, PageTable.dead, PageTable.empty, isV_zero]
    | free | held | hand | trapframe p => exact ⟨hu, by simp⟩
  constructor
  · refine h.retable (m := s.mem) (h.exclusive.mono fun u a hu => (hsub u a hu).1)
      (h.ram_mono rfl fun u a hu => (hsub u a hu).1) ?_ ?_ ?_ (by simp)
    · grind [h.dead, update_apply]
    · grind [h.top, update_apply, PageTable.dead, PageTable.empty]
    · grind [h.ne_spare hspare, update_of_ne]
  · grind [h.unowned]

/-- Several unowned pages are freed. -/
theorem Own.gainFrees {l : List Nat} (hnd : l.Nodup) (hfree : ∀ pa ∈ l, Unowned g s pa) :
    Own g { s with freelist := l.reverse ++ s.freelist, mem := m } := by
  have hpages : ∀ u pa, Holds g { s with freelist := l.reverse ++ s.freelist, mem := m } u pa →
      (u = .free ∧ pa ∈ l) ∨ Holds g s u pa := by
    intro u pa hu
    cases u with
    | free => grind [Holds]
    | _ => exact .inr hu
  refine h.lists ?_ ?_ ?_
  · intro u v pa hu hv
    rcases hpages u pa hu with ⟨rfl, hin⟩ | hu'
    · rcases hpages v pa hv with ⟨rfl, -⟩ | hv'
      · rfl
      · exact absurd hv' ((hfree pa hin).unused v)
    · rcases hpages v pa hv with ⟨rfl, hin⟩ | hv'
      · exact absurd hu' ((hfree pa hin).unused u)
      · exact h.exclusive hu' hv'
  · intro u pa hu
    rcases hpages u pa hu with ⟨-, hin⟩ | hu'
    · exact ⟨(hfree pa hin).ram, (hfree pa hin).kend⟩
    · exact h.ram u pa hu'
  · rw [List.append_assoc, List.append_assoc, ← List.append_assoc s.freelist]
    refine List.nodup_append.mpr ⟨List.nodup_reverse.mpr hnd, h.nodup, ?_⟩
    rintro pa hpa _ hpb rfl
    exact (hfree pa (List.mem_reverse.mp hpa)).notMem hpb

/-- Freeing a spare table returns its pages. -/
theorem Own.destroy (hspare : g.spare = some (root, none)) :
    Own { g with spare := none } (s.freedTable root m) := by
  have hlive := (h.spare root _ hspare).1
  obtain ⟨hown, hdrop⟩ := h.dropTable hspare
  refine hown.gainFrees (l := (s.pagetables root).pages root) ?_ ?_
  · refine pages_nodup ?_ ?_ ?_ ?_ ?_
    · intro i i' pa hi hi'
      cases h.exclusive (u := .dir root i) (v := .dir root i') hi hi'
      rfl
    · intro j j' pa hj hj'
      cases h.exclusive (u := .mid root j) (v := .mid root j') hj hj'
      rfl
    · intro i j pa hi hj
      cases h.exclusive (u := .dir root i) (v := .mid root j) hi hj
    · intro i hi
      cases h.exclusive (u := .dir root i) (v := .root root) hi ⟨rfl, hlive⟩
    · intro j hj
      cases h.exclusive (u := .mid root j) (v := .root root) hj ⟨rfl, hlive⟩
  · intro pa hpa
    rcases mem_pages hpa with rfl | ⟨i, hi⟩ | ⟨j, hj⟩
    · exact hdrop pa (.root pa) ⟨rfl, hlive⟩ (.inl rfl)
    · exact hdrop pa (.dir root i) hi (.inr (.inl ⟨i, rfl⟩))
    · exact hdrop pa (.mid root j) hj (.inr (.inr ⟨j, rfl⟩))

end GemOS
