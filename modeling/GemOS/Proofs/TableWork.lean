/-
What the page-table code does, call by call, without a fault.

Each result gives the run of one function on one table: under what
conditions it returns, and with which leaves. They are weakest
preconditions (`wp`), so they also rule faults out.

# Pages the code may free

`kfree` panics on a page it does not like. Whether that can happen
depends on where the pages come from, so the results are stated for any
set `F` of pages that `kfree` takes (`Takes`): with the pages of RAM
above the kernel, nothing panics; where the panic of `kfree` does not
matter, `F` can be everything. `Stock` and `PageTable.Good` say that the
pages that are free, and those a table is made of, are in `F`.

# Extending and releasing

`Extends root` is what allocating work on the table at `root` can do to
everything but its leaves: pages are drawn, and interior tables built
from them. `Releases root` is what giving pages back can do.
-/
import GemOS.Lib.Wp
import GemOS.Proofs.KeptVm

namespace GemOS

open Function Prog

-- ======== pages

/-- The pages nobody uses. -/
def Kernel.avail (s : Kernel) : List Nat := s.freelist ++ s.held

/-- `F` holds of pages that can be freed, the panic of `kfree` aside if
`E` allows it, in a kernel image that ends at `k`; writing such a page
into a PTE and reading it back stays in `F`. -/
structure Takes (E : Fault → Prop) (k : Nat) (F : Nat → Prop) : Prop where
  kfree : ∀ pa, F pa → (pa % pgsize = 0 ∧ k ≤ pa ∧ pa < phystop) ∨ E (.panic "kfree")
  word : ∀ pa perm, F pa → perm < 1024 → F (pte2pa (pa2pte pa ||| perm ||| pteV))

/-- Pages of RAM above the image never make `kfree` panic. -/
theorem Takes.ram (E : Fault → Prop) (k : Nat) : Takes E k fun pa => RamPage pa ∧ k ≤ pa where
  kfree _ h := .inl ⟨h.1.1, h.2, h.1.2.2⟩
  word pa perm h hperm := by
    rw [pte2pa_mapped h.1.1 h.1.2.2 hperm]
    exact h

/-- Where the panic of `kfree` is allowed, any page will do. -/
theorem Takes.any {E : Fault → Prop} (hE : E (.panic "kfree")) (k : Nat) :
    Takes E k fun _ => True :=
  ⟨fun _ _ => .inr hE, fun _ _ _ _ => trivial⟩

/-- The free pages are in `F`, and the image ends at `k`. -/
structure Stock (k : Nat) (F : Nat → Prop) (s : Kernel) : Prop where
  kend : s.kend = k
  avail : ∀ pa ∈ s.avail, F pa

/-- A live table whose pages, its user pages included, are in `F`. -/
structure PageTable.Good (F : Nat → Prop) (root : Nat) (t : PageTable) : Prop where
  live : t.live = true
  root : F root
  dir : ∀ i pa, t.dir i = some pa → F pa
  mid : ∀ j pa, t.mid j = some pa → F pa
  leaf : ∀ v < userPages, isV (t.leaf v) = true → F (pte2pa (t.leaf v))

variable {F : Nat → Prop} {s s' : Kernel} {l : Nat → Nat} {v : Nat}

theorem Stock.push {k : Nat} {pa : Nat} (h : Stock k F s) (hpa : F pa) : Stock k F (s.push pa) := by
  refine ⟨h.kend, fun b hb => ?_⟩
  rcases List.mem_cons.mp hb with rfl | hb
  · exact hpa
  · exact h.avail b hb

/-- One leaf more. -/
theorem good_update {root i w : Nat} {t : PageTable} (ht : t.Good F root)
    (hw : F (pte2pa w)) (hl : l = update t.leaf i w) :
    ∀ v < userPages, isV (l v) = true → F (pte2pa (l v)) := by
  intro v hv hV
  rw [hl] at hV ⊢
  by_cases hvi : v = i
  · rw [hvi, update_self]
    exact hw
  · rw [update_of_ne hvi] at hV ⊢
    exact ht.leaf v hv hV

/-- The processes are outside the allocator and the tables. -/
theorem proc_of_beside (h : s'.beside = s.beside) : s'.proc = s.proc := by
  have hproc := congrArg Kernel.proc h
  exact hproc

theorem kend_of_beside (h : s'.beside = s.beside) : s'.kend = s.kend := by
  have hkend := congrArg Kernel.kend h
  exact hkend

-- ======== extending

/-- Pages were drawn for the table at `root` and its interior built from
them; its leaves may be others now. -/
structure Extends (root : Nat) (s s' : Kernel) : Prop where
  beside : s'.beside = s.beside
  avail : s'.avail.Subperm s.avail
  mem : ∀ pa, pa ∉ s.avail → s'.mem pa = s.mem pa
  others : ∀ r, r ≠ root → s'.pagetables r = s.pagetables r
  live : (s'.pagetables root).live = (s.pagetables root).live
  dir : ∀ i pa, (s'.pagetables root).dir i = some pa →
    (s.pagetables root).dir i = some pa ∨ pa ∈ s.avail
  mid : ∀ j pa, (s'.pagetables root).mid j = some pa →
    (s.pagetables root).mid j = some pa ∨ pa ∈ s.avail

namespace Extends

variable {root : Nat} {s s1 s' : Kernel} {k : Nat} {F : Nat → Prop}

theorem refl (root : Nat) (s : Kernel) : Extends root s s :=
  ⟨rfl, .refl _, fun _ _ => rfl, fun _ _ => rfl, rfl, fun _ _ h => .inl h, fun _ _ h => .inl h⟩

theorem trans (h : Extends root s s1) (h' : Extends root s1 s') : Extends root s s' where
  beside := h'.beside.trans h.beside
  avail := h'.avail.trans h.avail
  mem pa hpa := (h'.mem pa fun h1 => hpa (h.avail.subset h1)).trans (h.mem pa hpa)
  others r hr := (h'.others r hr).trans (h.others r hr)
  live := h'.live.trans h.live
  dir i pa hpa := by
    rcases h'.dir i pa hpa with h1 | h1
    · exact h.dir i pa h1
    · exact .inr (h.avail.subset h1)
  mid j pa hpa := by
    rcases h'.mid j pa hpa with h1 | h1
    · exact h.mid j pa h1
    · exact .inr (h.avail.subset h1)

theorem stock (h : Extends root s s') (hs : Stock k F s) : Stock k F s' where
  kend := (kend_of_beside h.beside).trans hs.kend
  avail pa hpa := hs.avail pa (h.avail.subset hpa)

/-- The table stays good if its leaves do. -/
theorem good (h : Extends root s s') (hs : Stock k F s) (ht : (s.pagetables root).Good F root)
    (hleaf : ∀ v < userPages, isV ((s'.pagetables root).leaf v) = true →
      F (pte2pa ((s'.pagetables root).leaf v))) :
    (s'.pagetables root).Good F root where
  live := h.live.trans ht.live
  root := ht.root
  dir i pa hpa := (h.dir i pa hpa).elim (ht.dir i pa) (hs.avail pa)
  mid j pa hpa := (h.mid j pa hpa).elim (ht.mid j pa) (hs.avail pa)
  leaf := hleaf

/-- A store to a leaf. -/
theorem setLeaf (root va w : Nat) (s : Kernel) : Extends root s (s.setLeaf root va w) where
  beside := rfl
  avail := .refl _
  mem _ _ := rfl
  others r hr := update_of_ne hr ..
  live := Kernel.setLeaf_live ..
  dir i pa hpa := .inl (by rwa [Kernel.setLeaf_dir] at hpa)
  mid j pa hpa := .inl (by rwa [Kernel.setLeaf_mid] at hpa)

/-- The allocator alone. -/
theorem pages {fl hd : List Nat} {m : Nat → Page} {e : List (List EnvOp)}
    (hsub : (fl ++ hd).Subperm s.avail) (hmem : ∀ pa, pa ∉ s.avail → m pa = s.mem pa) :
    Extends root s (s.withPages fl hd m e) :=
  { refl root s with beside := rfl, avail := hsub, mem := hmem }

variable {pa : Nat}

/-- Bytes of a page that was free are written. -/
theorem write (h : Extends root s s') (hpa : pa ∈ s.avail) (p : Page) :
    Extends root s { s' with mem := update s'.mem pa p } where
  beside := h.beside
  avail := h.avail
  mem b hb := by
    have hne : b ≠ pa := fun heq => hb (heq ▸ hpa)
    show update s'.mem pa p b = s.mem b
    rw [update_of_ne hne, h.mem b hb]
  others := h.others
  live := h.live
  dir := h.dir
  mid := h.mid

/-- An interior table is linked in. -/
theorem link (h : Extends root s s') (hpa : pa ∈ s.avail) {t : PageTable}
    (hlive : t.live = (s'.pagetables root).live)
    (hdir : ∀ i b, t.dir i = some b → (s'.pagetables root).dir i = some b ∨ b = pa)
    (hmid : ∀ j b, t.mid j = some b → (s'.pagetables root).mid j = some b ∨ b = pa) :
    Extends root s ((s'.memset pa 0).setTable root t) := by
  have hself : ((s'.memset pa 0).setTable root t).pagetables root = t := update_self ..
  refine { h.write hpa (fill 0) with
      others := fun r hr => (update_of_ne hr ..).trans (h.others r hr)
      live := by rw [hself, hlive]; exact h.live
      dir := fun i b hb => ?_
      mid := fun j b hb => ?_ }
  · grind [h.dir]
  · grind [h.mid]

end Extends

section extending

variable {E : Fault → Prop} {s : Kernel} {root : Nat}

theorem wp_kalloc (root : Nat) : wp E kalloc (fun r s' => Extends root s s'
      ∧ s'.pagetables = s.pagetables
      ∧ (r.toList ++ s'.avail).Perm s.avail) s := by
  have hrun : ∃ r s' t, kalloc s = .ok (r, s', t) := by
    rw [kalloc_run]
    cases s.interfered.freelist <;> exact ⟨_, _, _, rfl⟩
  obtain ⟨r, s', t, hrun⟩ := hrun
  obtain ⟨-, fl, hd, m, e, rfl, hp, hmem, -, -⟩ := kalloc_ok hrun
  rw [List.append_assoc] at hp
  refine .of_ok hrun ⟨.pages ?_ hmem, rfl, hp⟩
  exact (List.sublist_append_right ..).subperm.trans hp.subperm

variable {l l' : List Nat} {pa va : Nat}

theorem nodup_of_subperm (h : l'.Subperm l) (hl : l.Nodup) : l'.Nodup := by
  obtain ⟨m, hp, hsub⟩ := h
  exact hp.nodup_iff.mp (hl.sublist hsub)

/-- The page that `kalloc` found was free, and no longer is. -/
theorem mem_avail_of_perm (hp : ((some pa).toList ++ l').Perm l) :
    pa ∈ l ∧ l'.length + 1 = l.length ∧ (l.Nodup → pa ∉ l') := by
  change (pa :: l').Perm l at hp
  exact ⟨hp.mem_iff.mp (List.mem_cons_self ..), hp.length_eq,
    fun hnd => (List.nodup_cons.mp (hp.nodup_iff.mpr hnd)).1⟩

theorem wp_kfree {k : Nat} {F : Nat → Prop} (hF : Takes E k F) (hk : s.kend = k)
    (hpa : F pa) : wp E (kfree pa) (fun _ s' => s' = s.push pa) s := by
  rcases hF.kfree pa hpa with ⟨halign, hlo, hhi⟩ | hE
  · exact .of_ok (kfree_run halign (hk ▸ hlo) hhi) rfl
  · exact .get_bind (.ite (fun _ => .fault hE) fun _ => .modify rfl)

-- ======== walk

/-- A round of `walk` finds an entry or links a fresh page under it. -/
theorem wp_walkLevel {entry : PageTable → Option Nat} {link : PageTable → Nat → PageTable}
    (hlink : ∀ {s' pa}, Extends root s s' → pa ∈ s.avail → s'.pagetables = s.pagetables →
      Extends root s ((s'.memset pa 0).setTable root (link (s'.pagetables root) pa)))
    (hleaf : ∀ t pa, (link t pa).leaf = t.leaf)
    (hentry : ∀ pa, (entry (link (s.pagetables root) pa)).isSome) :
    wp E (walkLevel root entry link true) (fun b s' => Extends root s s'
      ∧ (s'.pagetables root).leaf = (s.pagetables root).leaf
      ∧ (b = true → (entry (s'.pagetables root)).isSome)) s := by
  refine .get_bind (.ite (fun hd => .pure ⟨.refl .., rfl, fun _ => hd⟩)
    fun hd => .ite (fun h => (nomatch h)) fun _ => ?_)
  refine .bind (wp_kalloc root) fun r s1 h => ?_
  obtain ⟨hext, hpt, hp⟩ := h
  cases r with
  | none => exact .pure ⟨hext, by rw [hpt], nofun⟩
  | some pa =>
    refine .modify_bind (.pure ⟨hlink hext (mem_avail_of_perm hp).1 hpt, ?_, fun _ => ?_⟩)
    · rw [Kernel.setTable_self, hleaf, hpt]
    · rw [Kernel.setTable_self, hpt]
      exact hentry pa

/-- A new entry of a level is the page linked there. -/
theorem update_some {f : Nat → Option Nat} {i j b : Nat} (h : update f i (some pa) j = some b) :
    f j = some b ∨ b = pa := by
  by_cases hj : j = i
  · rw [hj, update_self] at h
    exact .inr (Option.some.inj h).symm
  · rw [update_of_ne hj] at h
    exact .inl h

theorem wp_walkDir (i : Nat) : wp E (walkDir root i true) (fun b s' => Extends root s s'
      ∧ (s'.pagetables root).leaf = (s.pagetables root).leaf
      ∧ (b = true → ((s'.pagetables root).dir i).isSome)) s :=
  wp_walkLevel (fun hext hpa _ => hext.link hpa rfl (fun _ _ => update_some) fun _ _ => .inl)
    (linkDir_leaf · i) fun _ => by simp [PageTable.linkDir]

theorem linkMid_dir (t : PageTable) (j pa : Nat) : (t.linkMid j pa).dir = t.dir := by
  unfold PageTable.linkMid
  split <;> rfl

theorem wp_walkMid (j : Nat) (hdir : ((s.pagetables root).dir (j >>> 9)).isSome) :
    wp E (walkMid root j true) (fun b s' => Extends root s s'
      ∧ (s'.pagetables root).leaf = (s.pagetables root).leaf
      ∧ (b = true → ((s'.pagetables root).mid j).isSome)) s := by
  have hmid := fun pa => linkMid_mid (Option.isSome_iff_ne_none.mp hdir) pa
  refine wp_walkLevel (fun {s' pa} hext hpa hpt => hext.link hpa (linkMid_live ..)
    (fun i b hb => ?_) fun i b hb => ?_) (linkMid_leaf · j) fun pa => ?_
  · rw [linkMid_dir] at hb
    exact .inl hb
  · rw [hpt] at hb ⊢
    rw [hmid] at hb
    exact update_some hb
  · rw [hmid, update_self]
    rfl

theorem wp_walk (hva : va < maxva) (hlive : (s.pagetables root).live = true) :
    wp E (walk root va true) (fun b s' => Extends root s s'
      ∧ (s'.pagetables root).leaf = (s.pagetables root).leaf
      ∧ (b = true → ((s'.pagetables root).mid (va >>> 21)).isSome)) s := by
  refine .ite (fun h => absurd hva (Nat.not_lt.mpr h)) fun _ =>
    .get_bind (.ite (fun _ => ?_) fun h => absurd hlive h)
  refine .bind (wp_walkDir (va >>> 30)) fun b s1 h => ?_
  obtain ⟨hext, hleaf, hdir⟩ := h
  refine .ite (fun hb => ?_) fun _ => .pure ⟨hext, hleaf, nofun⟩
  refine (wp_walkMid (va >>> 21) ?_).mono fun b' s' h => ?_
  · rw [← Nat.shiftRight_add]
    exact hdir hb
  · exact ⟨hext.trans h.1, h.2.1.trans hleaf, h.2.2⟩

/-- A walk that may not allocate only looks. -/
theorem wp_lookup (hva : va < maxva) (hlive : (s.pagetables root).live = true) :
    wp E (walk root va false) (fun b s' => s' = s
      ∧ b = ((s.pagetables root).mid (va >>> 21)).isSome) s :=
  .of_ok (walk_look_run hva hlive) ⟨rfl, rfl⟩

-- ======== mappages

/-- `mappages` of one page whose PTE is not valid writes it, unless an
interior table cannot be had. -/
theorem wp_mappages {perm : Nat} (halign : va % pgsize = 0) (hva : va < maxva)
    (hlive : (s.pagetables root).live = true) (hV : isV (s.pte root va) = false) :
    wp E (mappages root va pgsize pa perm) (fun r s' => Extends root s s'
      ∧ ((r = 0 ∧ (s'.pagetables root).leaf = update (s.pagetables root).leaf (va >>> 12)
                (pa2pte pa ||| perm ||| pteV))
        ∨ (r = -1 ∧ (s'.pagetables root).leaf = (s.pagetables root).leaf))) s := by
  refine .ite (fun h => absurd halign h) fun _ => .ite (fun h => absurd rfl h)
    fun _ => .ite (fun h => (by cases h)) fun _ => ?_
  show wp E (mappagesLoop root perm (0 + 1) va pa) _ s
  refine .bind (wp_walk hva hlive) fun b s1 h => ?_
  obtain ⟨hext, hleaf, hmid⟩ := h
  refine .ite (fun hb => .get_bind (.ite (fun hV' => ?_) fun _ => ?_)) fun _ =>
    .pure ⟨hext, .inr ⟨rfl, hleaf⟩⟩
  · have hpte : s1.pte root va = s.pte root va := congrFun hleaf _
    rw [hpte, hV] at hV'
    cases hV'
  · refine .note_bind (.modify_bind (.pure ⟨hext.trans (.setLeaf ..), .inl ⟨rfl, ?_⟩⟩))
    have hmid' := hmid hb
    rw [← vpn_shift] at hmid'
    show ((s1.setTable root _).pagetables root).leaf = _
    rw [Kernel.setTable_self, setLeaf_leaf _ hmid', hleaf]

end extending

-- ======== releasing

/-- Pages were given back and leaves of the table at `root` cleared. -/
structure Releases (root : Nat) (s s' : Kernel) : Prop where
  beside : s'.beside = s.beside
  free : s.freelist <:+ s'.freelist
  held : s'.held = s.held
  others : ∀ r, r ≠ root → s'.pagetables r = s.pagetables r
  live : (s'.pagetables root).live = (s.pagetables root).live
  dir : (s'.pagetables root).dir = (s.pagetables root).dir
  mid : (s'.pagetables root).mid = (s.pagetables root).mid

namespace Releases

variable {root : Nat} {s s1 s' : Kernel}

theorem refl (root : Nat) (s : Kernel) : Releases root s s :=
  ⟨rfl, List.suffix_refl _, rfl, fun _ _ => rfl, rfl, rfl, rfl⟩

theorem trans (h : Releases root s s1) (h' : Releases root s1 s') : Releases root s s' where
  beside := h'.beside.trans h.beside
  free := h.free.trans h'.free
  held := h'.held.trans h.held
  others r hr := (h'.others r hr).trans (h.others r hr)
  live := h'.live.trans h.live
  dir := h'.dir.trans h.dir
  mid := h'.mid.trans h.mid

theorem push (root pa : Nat) (s : Kernel) : Releases root s (s.push pa) :=
  { refl root s with beside := rfl, free := List.suffix_cons .. }

theorem setLeaf (root va w : Nat) (s : Kernel) : Releases root s (s.setLeaf root va w) where
  beside := rfl
  free := List.suffix_refl _
  held := rfl
  others _ hr := update_of_ne hr ..
  live := Kernel.setLeaf_live ..
  dir := Kernel.setLeaf_dir ..
  mid := Kernel.setLeaf_mid ..

end Releases

/-- The leaves `l` once the valid ones from page `lo` on, `n` of them,
are cleared. -/
def cleared (l : Nat → Nat) (lo n : Nat) : Nat → Nat := fun v =>
  if lo ≤ v ∧ v < lo + n ∧ isV (l v) = true then 0 else l v

theorem cleared_zero (l : Nat → Nat) (lo : Nat) : cleared l lo 0 = l := by
  funext v
  exact if_neg fun h => by omega

theorem cleared_one (hV : isV (l v) = true) : cleared l v 1 = update l v 0 := by
  funext w
  unfold cleared
  by_cases hw : w = v
  · rw [hw, update_self]
    exact if_pos ⟨le_rfl, by omega, hV⟩
  · rw [update_of_ne hw]
    exact if_neg fun h => by omega

/-- One page first, then the rest. -/
theorem cleared_succ (l : Nat → Nat) (lo n : Nat) :
    cleared (cleared l lo 1) (lo + 1) n = cleared l lo (n + 1) := by
  funext v
  unfold cleared
  by_cases hv : v = lo
  · grind
  · grind

theorem cleared_valid {lo n : Nat} (h : isV (cleared l lo n v) = true) :
    cleared l lo n v = l v ∧ isV (l v) = true ∧ (v < lo ∨ lo + n ≤ v) := by
  unfold cleared at h ⊢
  split at h
  · rw [isV_zero] at h
    cases h
  · grind

section releasing

variable {E : Fault → Prop} {k : Nat} {F : Nat → Prop} {s : Kernel} {root : Nat}

variable {s' : Kernel} {doFree : Bool} {n : Nat}

theorem Releases.good (h : Releases root s s') (ht : (s.pagetables root).Good F root)
    (hleaf : ∀ v < userPages, isV ((s'.pagetables root).leaf v) = true →
      (s'.pagetables root).leaf v = (s.pagetables root).leaf v) :
    (s'.pagetables root).Good F root where
  live := h.live.trans ht.live
  root := ht.root
  dir i pa hpa := ht.dir i pa (by rwa [h.dir] at hpa)
  mid j pa hpa := ht.mid j pa (by rwa [h.mid] at hpa)
  leaf v hv hV := by
    have heq := hleaf v hv hV
    rw [heq] at hV ⊢
    exact ht.leaf v hv hV

/-- What unmapping the pages from `lo` on has done. -/
structure Unmapped (k : Nat) (F : Nat → Prop) (root lo n : Nat)
    (doFree : Bool) (s s' : Kernel) : Prop extends Releases root s s' where
  leaf : (s'.pagetables root).leaf = cleared (s.pagetables root).leaf lo n
  stock : Stock k F s → Stock k F s'
  freed : doFree = true → ∀ v, lo ≤ v → v < lo + n → isV ((s.pagetables root).leaf v) = true →
    pte2pa ((s.pagetables root).leaf v) ∈ s'.freelist

theorem Unmapped.good {lo : Nat} (h : Unmapped k F root lo n doFree s s')
    (ht : (s.pagetables root).Good F root) : (s'.pagetables root).Good F root := by
  refine h.toReleases.good ht fun v _ hV => ?_
  rw [h.leaf] at hV ⊢
  exact (cleared_valid hV).1

theorem wp_uvmunmapPage (hF : Takes E k F) {a : Nat} (ha : a < maxva)
    (hfree : doFree = true → a < trapframeVa) (hk : s.kend = k)
    (ht : (s.pagetables root).Good F root) : wp E (uvmunmapPage root a doFree)
      (fun _ s' => Unmapped k F root (a >>> 12) 1 doFree s s') s := by
  -- nothing valid, nothing done
  have hskip : isV (s.pte root a) = false → Unmapped k F root (a >>> 12) 1 doFree s s := by
    intro hV
    refine ⟨.refl .., ?_, fun h => h, ?_⟩
    · funext v
      refine (if_neg fun h => ?_).symm
      obtain rfl : v = a >>> 12 := by omega
      exact absurd (h.2.2.symm.trans hV) nofun
    · intro _ v hlo hhi hV'
      obtain rfl : v = a >>> 12 := by omega
      exact absurd (hV'.symm.trans hV) nofun
  refine .bind (wp_lookup ha ht.live) fun b s1 h => ?_
  obtain ⟨rfl, rfl⟩ := h
  refine .ite (fun hmid => .get_bind (.ite (fun hV => .note_bind ?_) fun hV =>
    .pure (hskip (by simpa using hV)))) fun hmid => .pure (hskip ?_)
  · have hleaf : ∀ x : Kernel, x.pagetables = s1.pagetables →
        ((x.setLeaf root a 0).pagetables root).leaf
          = cleared (s1.pagetables root).leaf (a >>> 12) 1 := by
      intro x hx
      rw [← vpn_shift] at hmid
      show ((x.setTable root _).pagetables root).leaf = _
      rw [Kernel.setTable_self, hx, setLeaf_leaf _ hmid]
      exact (cleared_one (l := (s1.pagetables root).leaf) hV).symm
    refine .ite (fun hd => ?_) fun hd => .modify ⟨.setLeaf .., hleaf _ rfl,
      fun h => ⟨h.kend, h.avail⟩, fun h => absurd h hd⟩
    have hpa := ht.leaf (a >>> 12) (vpn_lt (hfree hd)) hV
    refine .bind (wp_kfree hF hk hpa) fun _ s2 h => ?_
    subst h
    refine .modify ⟨(Releases.push ..).trans (.setLeaf ..), hleaf _ rfl,
      fun h => ⟨h.kend, (h.push hpa).avail⟩, fun _ v hlo hhi _ => ?_⟩
    · obtain rfl : v = a >>> 12 := by omega
      exact List.mem_cons_self ..
  · rw [pte_of_mid_none (Option.not_isSome_iff_eq_none.mp hmid)]
    rfl

/-- The loop of `uvmunmap`: each page in turn. -/
theorem wp_uvmunmapLoop (hF : Takes E k F) (n : Nat) :
    ∀ {a : Nat} {s : Kernel}, a % pgsize = 0 → a + n * pgsize ≤ maxva →
    (doFree = true → a + n * pgsize ≤ trapframeVa) → s.kend = k → (s.pagetables root).Good F root →
    wp E (uvmunmapLoop root doFree n a)
      (fun _ s' => Unmapped k F root (a >>> 12) n doFree s s') s := by
  induction n with
  | zero =>
    intro a s _ _ _ _ _
    exact .pure ⟨.refl .., (cleared_zero ..).symm, fun h => h, fun _ v hlo hhi => by omega⟩
  | succ n ih =>
    intro a s halign hend hfree hk ht
    have hnext : (a + pgsize) >>> 12 = a >>> 12 + 1 := by
      simp only [Nat.shiftRight_eq_div_pow, pgsize]
      omega
    refine .bind (wp_uvmunmapPage hF (by simp only [pgsize] at *; omega)
      (fun hd => ?_) hk ht) fun _ s1 h1 => ?_
    · grind
    refine (ih (s := s1) ?_ ?_ (fun hd => ?_) ?_ (h1.good ht)).mono fun _ s' h' => ?_
    · rw [Nat.add_mod_right]
      exact halign
    · simp only [pgsize] at *
      omega
    · grind
    · exact (kend_of_beside h1.beside).trans hk
    rw [hnext] at h'
    refine ⟨h1.toReleases.trans h'.toReleases, ?_, fun h => h'.stock (h1.stock h),
      fun hd v hlo hhi hV => ?_⟩
    · rw [h'.leaf, h1.leaf, cleared_succ]
    · by_cases hv : v < a >>> 12 + 1
      · exact h'.free.subset (h1.freed hd v hlo hv hV)
      · have hsame : (s1.pagetables root).leaf v = (s.pagetables root).leaf v := by
          rw [h1.leaf]
          exact if_neg fun h => hv h.2.1
        rw [← hsame] at hV ⊢
        exact h'.freed hd v (by omega) (by omega) hV

theorem wp_uvmunmap (hF : Takes E k F) {va : Nat} (halign : va % pgsize = 0)
    (hend : va + n * pgsize ≤ maxva)
    (hfree : doFree = true → va + n * pgsize ≤ trapframeVa) (hk : s.kend = k)
    (ht : (s.pagetables root).Good F root) : wp E (uvmunmap root va n doFree)
      (fun _ s' => Unmapped k F root (va >>> 12) n doFree s s') s := by
  have hcount : ((va + n * pgsize) % 2 ^ 64 - va) / pgsize = n := by
    simp only [maxva, pgsize] at *
    omega
  refine .ite (fun h => absurd halign h) fun _ => ?_
  rw [hcount]
  exact wp_uvmunmapLoop hF n halign hend hfree hk ht

/-- `uvmdealloc` down to a smaller size clears what lies between the two,
rounded up. -/
theorem wp_uvmdealloc (hF : Takes E k F) {oldsz newsz : Nat}
    (hold : oldsz ≤ trapframeVa) (hle : newsz ≤ oldsz) (hk : s.kend = k)
    (ht : (s.pagetables root).Good F root) :
    wp E (uvmdealloc root oldsz newsz) (fun r s' => r = newsz
      ∧ Unmapped k F root (pgroundup newsz >>> 12)
        ((pgroundup oldsz - pgroundup newsz) / pgsize) true s s') s := by
  have hnone : pgroundup oldsz ≤ pgroundup newsz → Unmapped k F root (pgroundup newsz >>> 12)
        ((pgroundup oldsz - pgroundup newsz) / pgsize) true s s := by
    intro hround
    rw [Nat.sub_eq_zero_of_le hround, Nat.zero_div]
    exact ⟨.refl .., (cleared_zero ..).symm, fun h => h, fun _ v hlo hhi => by omega⟩
  have hup := pgroundup_le hold
  refine .ite (fun hge => .pure ⟨hle.antisymm hge |>.symm ▸ rfl, hnone ?_⟩)
    fun hlt => .ite (fun hround => ?_) fun hround => .pure ⟨rfl, hnone (Nat.not_lt.mp hround)⟩
  · rw [hle.antisymm hge]
  · have hnew := @pgroundup_le newsz (by omega)
    have hcount : countArg ((pgroundup oldsz - pgroundup newsz) / pgsize)
        = (pgroundup oldsz - pgroundup newsz) / pgsize := by
      grind [countArg_of_lt]
    rw [hcount]
    have hend : pgroundup newsz + (pgroundup oldsz - pgroundup newsz) / pgsize
        * pgsize ≤ trapframeVa := by
      simp only [trapframeVa, trampolineVa, maxva, pgsize] at *
      omega
    refine .bind (wp_uvmunmap hF hnew.2.2 (hend.trans (by decide))
      (fun _ => hend) hk ht) fun _ s' h => .pure ⟨rfl, h⟩

end releasing

-- ======== growing

/-- Whatever was done to the table at `root`, it and the free pages are
good, and nothing else changed. -/
structure Worked (k : Nat) (F : Nat → Prop) (root : Nat) (s s' : Kernel) : Prop where
  beside : s'.beside = s.beside
  others : ∀ r, r ≠ root → s'.pagetables r = s.pagetables r
  stock : Stock k F s'
  good : (s'.pagetables root).Good F root

theorem vpn_le {va : Nat} (h : va ≤ trapframeVa) : va >>> 12 ≤ userPages := by
  simp only [trapframeVa, trampolineVa, maxva, pgsize, userPages, Nat.shiftRight_eq_div_pow] at *
  omega

/-- No valid user leaf from page `lo` on. -/
def NoneFrom (lo : Nat) (l : Nat → Nat) : Prop :=
  ∀ v, lo ≤ v → v < userPages → isV (l v) = false

/-- The leaves `l'` are `l` without the user leaves from `lo` on. -/
def CutAt (lo : Nat) (l l' : Nat → Nat) : Prop :=
  NoneFrom lo l' ∧ ∀ v, v < lo ∨ userPages ≤ v → l' v = l v

/-- The leaves `l'` are `l` with pages of `avail` mapped from `lo` up to
`hi`, with permissions `perm`. -/
def FilledTo (avail : List Nat) (lo hi perm : Nat) (l l' : Nat → Nat) :
    Prop :=
  ∀ v, (lo ≤ v → v < hi → ∃ pa ∈ avail, l' v = pa2pte pa ||| perm ||| pteV)
    ∧ (v < lo ∨ hi ≤ v → l' v = l v)

section growing

variable {E : Fault → Prop} {k : Nat} {F : Nat → Prop} {root : Nat}

variable {a old newsz xperm : Nat} {s : Kernel}

/-- Rolling a failed growth back: the pages mapped so far, from `old` up
to `a`, go. -/
theorem wp_rollback (hF : Takes E k F) {s1 : Kernel} (hold : old % pgsize = 0)
    (halign : a % pgsize = 0) (hle : old ≤ a) (ha : a ≤ trapframeVa)
    (hnone : NoneFrom (a >>> 12) (s.pagetables root).leaf) (hbeside : s1.beside = s.beside)
    (hothers : ∀ r, r ≠ root → s1.pagetables r = s.pagetables r)
    (hstock : Stock k F s1) (ht : (s1.pagetables root).Good F root)
    (hleaf : (s1.pagetables root).leaf = (s.pagetables root).leaf) :
    wp E (do let _ ← uvmdealloc root a old; return 0) (fun r s' => r = 0 ∧ Worked k F root s s'
      ∧ CutAt (old >>> 12) (s.pagetables root).leaf (s'.pagetables root).leaf) s1 := by
  have hup : ∀ b, b % pgsize = 0 → b ≤ trapframeVa → pgroundup b = b := by
    intro b hb hb'
    simp only [pgroundup, trapframeVa, trampolineVa, maxva, pgsize] at *
    omega
  refine .bind (wp_uvmdealloc hF ha hle hstock.kend ht) fun _ s' h => ?_
  obtain ⟨-, h⟩ := h
  rw [hup a halign ha, hup old hold (hle.trans ha)] at h
  have hcount : old >>> 12 + (a - old) / pgsize = a >>> 12 := by
    simp only [Nat.shiftRight_eq_div_pow, pgsize] at *
    omega
  have hl := h.leaf
  rw [hleaf] at hl
  refine .pure ⟨rfl, ⟨h.beside.trans hbeside, fun r hr => (h.others r hr).trans
    (hothers r hr), h.stock hstock, h.good ht⟩, fun v hlo hv => ?_, fun v hv => ?_⟩
  · rw [hl]
    by_contra hV
    obtain ⟨-, hV', hout⟩ := cleared_valid (by simpa using hV)
    rw [hcount] at hout
    exact absurd (hnone v (by omega) hv) (by simp [hV'])
  · rw [hl]
    refine if_neg fun h => ?_
    rw [hcount] at h
    have := vpn_le ha
    omega

/-- The pages a size takes up. -/
def pagesOf (sz : Nat) : Nat := (sz + (pgsize - 1)) / pgsize

theorem pgroundup_pagesOf {sz : Nat} (h : sz ≤ trapframeVa) :
    pgroundup sz = pagesOf sz * pgsize := by
  unfold pgroundup pagesOf
  simp only [trapframeVa, trampolineVa, maxva, pgsize] at *
  omega

/-- The outcomes of growing a table from address `a` to size `newsz`: all
of it, paid for page by page, or a return to what there was below
`old`. -/
inductive Grew (k : Nat) (F : Nat → Prop) (root old a newsz perm : Nat)
    (s : Kernel) : Nat → Kernel → Prop
  | all {s' : Kernel} : Extends root s s' → Worked k F root s s' →
      FilledTo s.avail (a >>> 12) (pagesOf newsz) perm
        (s.pagetables root).leaf (s'.pagetables root).leaf →
      newsz ≤ trapframeVa →
      s'.avail.length + (pagesOf newsz - a >>> 12) ≤ s.avail.length →
      Grew k F root old a newsz perm s newsz s'
  | none {s' : Kernel} : Worked k F root s s' →
      CutAt (old >>> 12) (s.pagetables root).leaf (s'.pagetables root).leaf →
      Grew k F root old a newsz perm s 0 s'

/-- One page mapped, then the rest. -/
theorem Grew.step {perm pa : Nat} {s2 s' : Kernel} {r : Nat}
    (hext : Extends root s s2) (hpa : pa ∈ s.avail)
    (hlen : s2.avail.length + 1 ≤ s.avail.length) (hold : old ≤ a)
    (ha : a < trapframeVa) (hnew : a < newsz) (hleaf : (s2.pagetables root).leaf
      = update (s.pagetables root).leaf (a >>> 12) (pa2pte pa ||| perm ||| pteV))
    (h : Grew k F root old (a + pgsize) newsz perm s2 r s') :
    Grew k F root old a newsz perm s r s' := by
  have hnext : (a + pgsize) >>> 12 = a >>> 12 + 1 := by
    simp only [Nat.shiftRight_eq_div_pow, pgsize]
    omega
  have hhi : a >>> 12 < pagesOf newsz := by
    unfold pagesOf
    simp only [Nat.shiftRight_eq_div_pow, pgsize]
    omega
  have hworked : Worked k F root s2 s' → Worked k F root s s' := fun w =>
    ⟨w.beside.trans hext.beside, fun r hr => (w.others r hr).trans
      (hext.others r hr), w.stock, w.good⟩
  cases h with
  | all hext' w hfill htop hpaid =>
    rw [hnext] at hfill hpaid
    refine .all (hext.trans hext') (hworked w) (fun v => ⟨fun hlo hv => ?_,
      fun hv => ?_⟩) htop (by omega)
    · by_cases hva : v = a >>> 12
      · refine ⟨pa, hpa, ?_⟩
        rw [(hfill v).2 (by omega), hleaf, hva, update_self]
      · obtain ⟨b, hb, heq⟩ := (hfill v).1 (by omega) hv
        exact ⟨b, hext.avail.subset hb, heq⟩
    · rw [(hfill v).2 (by omega), hleaf, update_of_ne (by omega)]
  | none w hcut =>
    refine .none (hworked w) ⟨hcut.1, fun v hv => ?_⟩
    have hva : v ≠ a >>> 12 := by
      grind [vpn_lt, Nat.shiftRight_eq_div_pow, Nat.div_le_div_right]
    rw [hcut.2 v hv, hleaf, update_of_ne hva]

theorem wp_uvmallocLoop (hF : Takes E k F)
    (hperm : pteR ||| pteU ||| xperm < 1024) (hold : old % pgsize = 0) (n : Nat) :
    ∀ {a : Nat} {s : Kernel}, a % pgsize = 0 → old ≤ a → a ≤ trapframeVa → newsz ≤ a + n * pgsize →
    (newsz ≤ trapframeVa ∨ a / pgsize + s.avail.length ≤ ramPages) →
    Stock k F s → (s.pagetables root).Good F root → NoneFrom (a >>> 12) (s.pagetables root).leaf →
    wp E (uvmallocLoop root old newsz xperm n a)
      (Grew k F root old a newsz (pteR ||| pteU ||| xperm) s) s := by
  have hdone : ∀ {a : Nat} {s : Kernel}, a ≤ trapframeVa → newsz ≤ a →
      a % pgsize = 0 → Stock k F s → (s.pagetables root).Good F root →
      Grew k F root old a newsz (pteR ||| pteU ||| xperm) s newsz s := by
    intro a s ha hn halign hs ht
    have hhi : pagesOf newsz ≤ a >>> 12 := by
      grind [pagesOf, Nat.shiftRight_eq_div_pow]
    exact .all (.refl ..) ⟨rfl, fun _ _ => rfl, hs, ht⟩
      (fun v => ⟨fun _ _ => by omega, fun _ => rfl⟩) (hn.trans ha) (by omega)
  induction n with
  | zero =>
    intro a s halign hle ha hn _ hs ht _
    exact .pure (hdone ha (by omega) halign hs ht)
  | succ n ih =>
    intro a s halign hle ha hn hroom hs ht hnone
    refine .ite (fun hlt => ?_) fun hge => .pure (hdone ha (Nat.not_lt.mp hge) halign hs ht)
    refine .bind (wp_kalloc root) fun r s1 h => ?_
    obtain ⟨hext, hpt, hp⟩ := h
    cases r with
    | none =>
      refine (wp_rollback hF hold halign hle ha hnone hext.beside
        hext.others (hext.stock hs) (by rw [hpt]; exact ht) (by rw [hpt])).mono ?_
      rintro r s' ⟨rfl, w, hcut⟩
      exact .none w hcut
    | some mem =>
      obtain ⟨hmem, hlen, -⟩ := mem_avail_of_perm hp
      have htop : a < trapframeVa := by grind
      refine .modify_bind ?_
      have hzero := hext.write hmem (fill 0)
      have hpte : isV ((s1.memset mem 0).pte root a) = false := by
        show isV ((s1.pagetables root).leaf (a >>> 12)) = false
        rw [hpt]
        exact hnone _ le_rfl (vpn_lt htop)
      refine .bind (wp_mappages halign (htop.trans (by decide)) ?_ hpte) fun r s2 h => ?_
      · exact (congrArg PageTable.live (congrFun hpt root)).trans ht.live
      obtain ⟨hmap, hcase⟩ := h
      have hext2 := hzero.trans hmap
      have hlen2 : s2.avail.length + 1 ≤ s.avail.length := by
        have := hmap.avail.length_le
        change _ ≤ s1.avail.length at this
        omega
      have hl1 : ((s1.memset mem 0).pagetables root).leaf = (s.pagetables root).leaf :=
        congrArg PageTable.leaf (congrFun hpt root)
      refine .ite (fun hr => ?_) fun hr => ?_
      · -- no interior table to be had: the page goes back first
        obtain ⟨-, hl⟩ := hcase.resolve_left fun h => hr h.1
        rw [hl1] at hl
        have ht2 := hext2.good hs ht (by rw [hl]; exact ht.leaf)
        refine .bind (wp_kfree hF (hext2.stock hs).kend (hs.avail mem hmem)) fun _ s3 h => ?_
        subst h
        have hbeside : (s2.push mem).beside = s.beside := hext2.beside
        refine (wp_rollback hF hold halign hle ha hnone hbeside hext2.others ?_ ht2 hl).mono ?_
        · exact (hext2.stock hs).push (hs.avail mem hmem)
        · rintro r s' ⟨rfl, w, hcut⟩
          exact .none w hcut
      · obtain ⟨-, hl⟩ := hcase.resolve_right fun h => by omega
        rw [hl1] at hl
        have ht2 := hext2.good hs ht (good_update ht (hF.word mem _ (hs.avail mem hmem) hperm) hl)
        refine (ih ?_ ?_ ?_ ?_ ?_ (hext2.stock hs) ht2 ?_).mono
          fun r s' h => h.step hext2 hmem hlen2 hle htop hlt hl
        · rw [Nat.add_mod_right]
          exact halign
        · omega
        · simp only [trapframeVa, trampolineVa, maxva, pgsize] at *
          omega
        · simp only [pgsize] at *
          omega
        · grind
        · intro v hlo hv
          have hne : v ≠ a >>> 12 := by
            simp only [Nat.shiftRight_eq_div_pow, pgsize] at *
            omega
          rw [hl, update_of_ne hne]
          refine hnone v ?_ hv
          simp only [Nat.shiftRight_eq_div_pow, pgsize] at *
          omega

/-- `uvmalloc` to a larger size. -/
theorem wp_uvmalloc (hF : Takes E k F) {oldsz : Nat}
    (hperm : pteR ||| pteU ||| xperm < 1024) (hold : oldsz ≤ trapframeVa)
    (hle : oldsz ≤ newsz) (hroom : newsz ≤ trapframeVa ∨ pagesOf oldsz + s.avail.length ≤ ramPages)
    (hs : Stock k F s) (ht : (s.pagetables root).Good F root)
    (hnone : NoneFrom (pagesOf oldsz) (s.pagetables root).leaf) :
    wp E (uvmalloc root oldsz newsz xperm) (Grew k F root (pgroundup oldsz) (pgroundup oldsz) newsz
        (pteR ||| pteU ||| xperm) s) s := by
  obtain ⟨hup, hge, halign⟩ := pgroundup_le hold
  have hpages : pgroundup oldsz / pgsize = pagesOf oldsz := by
    rw [pgroundup_pagesOf hold]
    exact Nat.mul_div_cancel _ (by decide)
  refine .ite (fun h => by omega) fun _ => ?_
  refine wp_uvmallocLoop hF hperm halign _ halign le_rfl hup ?_ ?_ hs ht ?_
  · have := Nat.lt_div_mul_add (a := newsz - pgroundup oldsz) (b := pgsize) (by decide)
    simp only [Nat.add_mul]
    omega
  · rwa [hpages]
  · rwa [Nat.shiftRight_eq_div_pow, show 2 ^ 12 = pgsize from rfl, hpages]

end growing

end GemOS
