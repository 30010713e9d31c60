/-
What `kalloc`, `walk` and `mappages` can have done when they return.

Each lemma says all of it: the new state is the old one with the named
fields replaced, the pages that moved, the memory that is untouched and
the notes left. Callers never unfold the functions again.
-/
import GemOS.Proofs.Pages

namespace GemOS

open Function Prog

-- ======== kalloc

variable {pa root i j va perm : Nat} {s s' s1 : Kernel}
  {t tr : List (Mark × Kernel)} {alloc b : Bool}

/-- Interference only writes pages that are free or held. -/
theorem EnvOp.apply_mem (s : Kernel) (o : EnvOp)
    (h : pa ∉ s.freelist ++ s.held) : (o.apply s).mem pa = s.mem pa := by
  rw [List.mem_append, not_or] at h
  cases o with
  | take =>
    simp only [apply]
    split
    · rfl
    · rename_i b rest hf
      refine update_of_ne ?_ _ _
      rintro rfl
      exact h.1 (by rw [hf]; exact List.mem_cons_self ..)
  | give b =>
    simp only [apply]
    split
    · rename_i hb
      refine update_of_ne ?_ _ _
      rintro rfl
      exact h.2 hb
    · rfl

theorem Kernel.interfered_mem (s : Kernel) (h : pa ∉ s.freelist ++ s.held) :
    s.interfered.mem pa = s.mem pa := by
  have hfold : ∀ (ops : List EnvOp) (s : Kernel), pa ∉ s.freelist ++ s.held →
      (ops.foldl EnvOp.apply s).mem pa = s.mem pa := by
    intro ops
    induction ops with
    | nil => intro s _; rfl
    | cons o ops ih =>
      intro s h
      obtain ⟨fl, hd, m, ho, hp⟩ := EnvOp.apply_shape s o
      rw [List.foldl_cons, ih, EnvOp.apply_mem s o h]
      rw [ho]
      exact fun hmem => h (hp.mem_iff.mp hmem)
  unfold Kernel.interfered
  split
  · rfl
  · exact hfold _ _ h

/-- The allocator's part of a state: the two lists, the script of the
rest of the kernel and the memory behind them. -/
def Kernel.withPages (s : Kernel) (fl hd : List Nat) (m : Nat → Page)
    (e : List (List EnvOp)) : Kernel :=
  { s with freelist := fl, held := hd, mem := m, env := e }

/-- What a `kalloc` call can have done. -/
theorem kalloc_ok {r : Option Nat} (h : kalloc s = .ok (r, s', t)) :
    t = [] ∧ ∃ fl hd m e, s' = s.withPages fl hd m e
      ∧ (r.toList ++ fl ++ hd).Perm (s.freelist ++ s.held)
      ∧ (∀ pa, pa ∉ s.freelist ++ s.held → m pa = s.mem pa)
      ∧ (∀ pa, r = some pa → m pa = fill 5)
      ∧ (s.env = [] → e = []) := by
  rw [kalloc_run] at h
  obtain ⟨fl, hd, m, e, hs, hp⟩ := s.interfered_shape
  have hmem : ∀ pa, pa ∉ s.freelist ++ s.held → m pa = s.mem pa := by
    intro pa hpa
    have := s.interfered_mem hpa
    rw [hs] at this
    exact this
  have henv : s.env = [] → e = [] := by
    intro he
    have := congrArg Kernel.env (s.interfered_of_env_nil he)
    rw [hs] at this
    exact this.trans he
  cases hfree : s.interfered.freelist with
  | nil =>
    rw [hfree] at h
    cases h
    have hfl : fl = [] := by rw [hs] at hfree; exact hfree
    subst hfl
    exact ⟨rfl, [], hd, m, e, hs, hp, hmem, fun pa hpa => (nomatch hpa), henv⟩
  | cons pa rest =>
    rw [hfree] at h
    cases h
    have hfl : fl = pa :: rest := by rw [hs] at hfree; exact hfree
    subst hfl
    refine ⟨rfl, rest, hd, update m pa (fill 5), e, ?_, hp, ?_, ?_, henv⟩
    · rw [hs]
      rfl
    · grind [update_apply, hp.mem_iff]
    · grind

-- ======== walk

/-- Interior tables come and go; the leaves and the liveness of every
table stay. -/
structure SameLeaves (pts pts' : Nat → PageTable) : Prop where
  leaf : ∀ r, (pts' r).leaf = (pts r).leaf
  live : ∀ r, (pts' r).live = (pts r).live

theorem SameLeaves.refl (pts : Nat → PageTable) : SameLeaves pts pts := ⟨fun _ => rfl, fun _ => rfl⟩

theorem SameLeaves.trans {a b c : Nat → PageTable} (h : SameLeaves a b)
    (h' : SameLeaves b c) : SameLeaves a c :=
  ⟨fun r => (h'.leaf r).trans (h.leaf r), fun r => (h'.live r).trans (h.live r)⟩

theorem SameLeaves.update {pts : Nat → PageTable} {r : Nat} {t : PageTable}
    (hleaf : t.leaf = (pts r).leaf) (hlive : t.live = (pts r).live) :
    SameLeaves pts (update pts r t) := by
  constructor <;> intro r' <;> by_cases hr : r' = r
  · rw [hr, update_self, hleaf]
  · rw [update_of_ne hr]
  · rw [hr, update_self, hlive]
  · rw [update_of_ne hr]

@[simp] theorem linkDir_leaf (t : PageTable) (i pa : Nat) : (t.linkDir i pa).leaf = t.leaf := rfl

@[simp] theorem linkDir_live (t : PageTable) (i pa : Nat) : (t.linkDir i pa).live = t.live := rfl

@[simp] theorem linkMid_leaf (t : PageTable) (j pa : Nat) : (t.linkMid j pa).leaf = t.leaf := by
  unfold PageTable.linkMid
  split <;> rfl

@[simp] theorem linkMid_live (t : PageTable) (j pa : Nat) : (t.linkMid j pa).live = t.live := by
  unfold PageTable.linkMid
  split <;> rfl

/-- What a descent of `walk` can have done: it may have turned free
pages into interior tables. -/
structure Descended (s s' : Kernel) : Prop where
  shape : ∃ fl hd m e pts, s' = { s.withPages fl hd m e with pagetables := pts }
  tables : SameLeaves s.pagetables s'.pagetables
  pages : ∀ pa, pa ∈ s'.freelist ++ s'.held → pa ∈ s.freelist ++ s.held
  mem : ∀ pa, pa ∉ s.freelist ++ s.held → s'.mem pa = s.mem pa
  env : s.env = [] → s'.env = []

theorem Descended.refl (s : Kernel) : Descended s s :=
  ⟨⟨s.freelist, s.held, s.mem, s.env, s.pagetables, rfl⟩, .refl _,
    fun _ h => h, fun _ _ => rfl, fun h => h⟩

theorem Descended.trans {s2 s3 : Kernel} (h : Descended s1 s2)
    (h' : Descended s2 s3) : Descended s1 s3 := by
  obtain ⟨fl, hd, m, e, pts, hs⟩ := h.shape
  obtain ⟨fl', hd', m', e', pts', hs'⟩ := h'.shape
  refine ⟨⟨fl', hd', m', e', pts', ?_⟩, h.tables.trans h'.tables,
    fun pa hpa => h.pages pa (h'.pages pa hpa), ?_, fun he => h'.env (h.env he)⟩
  · rw [hs', hs]
    rfl
  · intro pa hpa
    rw [h'.mem pa fun hin => hpa (h.pages pa hin), h.mem pa hpa]

/-- A zeroed page is linked in as an interior table. -/
theorem Descended.link {t1 : PageTable} (h : kalloc s = .ok (some pa, s1, tr))
    (hleaf : t1.leaf = (s.pagetables root).leaf) (hlive : t1.live = (s.pagetables root).live) :
    Descended s ((s1.memset pa 0).setTable root t1) := by
  obtain ⟨-, fl, hd, m, e, rfl, hp, hmem, -, henv⟩ := kalloc_ok h
  refine ⟨⟨fl, hd, update m pa (fill 0), e, _, rfl⟩, SameLeaves.update hleaf hlive, ?_, ?_, henv⟩
  · intro b hb
    refine hp.mem_iff.mp ?_
    rw [List.append_assoc]
    exact List.mem_append_right _ hb
  · intro b hb
    show update m pa (fill 0) b = s.mem b
    rw [update_of_ne, hmem b hb]
    rintro rfl
    exact hb (hp.mem_iff.mp (by simp))

theorem Descended.kalloc (h : kalloc s = .ok (none, s1, tr)) : Descended s s1 := by
  obtain ⟨-, fl, hd, m, e, rfl, hp, hmem, -, henv⟩ := kalloc_ok h
  exact ⟨⟨fl, hd, m, e, s.pagetables, rfl⟩, .refl _, fun b hb => hp.mem_iff.mp hb, hmem, henv⟩

@[simp] theorem Kernel.setTable_self (s : Kernel) (root : Nat) (t : PageTable) :
    (s.setTable root t).pagetables root = t :=
  update_self ..

section

variable {entry : PageTable → Option Nat} {link : PageTable → Nat → PageTable}

/-- A round finds its entry or links a page there, if it may and there is
one. -/
theorem walkLevel_ok (hleaf : ∀ t pa, (link t pa).leaf = t.leaf)
    (hlive : ∀ t pa, (link t pa).live = t.live)
    (hentry : ∀ pa, (entry (link (s.pagetables root) pa)).isSome)
    (h : walkLevel root entry link alloc s = .ok (b, s', t)) :
    t = [] ∧ Descended s s' ∧ b = (entry (s'.pagetables root)).isSome := by
  simp only [walkLevel, get_bind_run] at h
  split at h
  · next hfound =>
    cases h
    exact ⟨rfl, .refl s, hfound.symm⟩
  next hnone =>
  rw [Bool.not_eq_true] at hnone
  split at h
  · cases h
    exact ⟨rfl, .refl s, hnone.symm⟩
  obtain ⟨r, s1, t1, t2, hk, hf, rfl⟩ := bind_ok h
  have hpt : s1.pagetables = s.pagetables := by
    obtain ⟨-, _, _, _, _, rfl, -⟩ := kalloc_ok hk
    rfl
  obtain ⟨rfl, -⟩ := kalloc_ok hk
  cases r with
  | none =>
    cases hf
    exact ⟨rfl, .kalloc hk, by rw [hpt, hnone]⟩
  | some pa =>
    cases hf
    refine ⟨rfl, .link hk (by rw [hleaf, hpt]) (by rw [hlive, hpt]), ?_⟩
    rw [Kernel.setTable_self, hpt, hentry]

theorem walkLevel_lookup (root : Nat) (s : Kernel) :
    walkLevel root entry link false s = .ok ((entry (s.pagetables root)).isSome, s, []) := by
  simp only [walkLevel, get_bind_run]
  cases entry (s.pagetables root) <;> rfl

end

theorem linkMid_mid {t : PageTable} (h : t.dir (j >>> 9) ≠ none) (pa : Nat) :
    (t.linkMid j pa).mid = update t.mid j (some pa) := by
  unfold PageTable.linkMid
  rw [dif_neg h]

/-- Without a level-1 table there is no level-0 table. -/
theorem mid_of_dir_none {t : PageTable} (h : t.dir (va >>> 30) = none) : t.mid (va >>> 21) = none :=
  t.mid_of_dir _ (by rw [← Nat.shiftRight_add]; exact h)

/-- What `walk` can have done. -/
theorem walk_ok (h : walk root va alloc s = .ok (b, s', t)) :
    t = [] ∧ va < maxva ∧ (s.pagetables root).live = true ∧ Descended s s'
      ∧ b = ((s'.pagetables root).mid (va >>> 21)).isSome := by
  unfold walk at h
  split at h
  · cases h
  next hva =>
  simp only [get_bind_run] at h
  split at h
  · next hlive =>
    obtain ⟨b1, s1, t1, t2, hd, hm, rfl⟩ := bind_ok h
    obtain ⟨rfl, hdesc, hdir⟩ := walkLevel_ok (fun t => linkDir_leaf t _)
      (fun t => linkDir_live t _) (fun pa => by simp [PageTable.linkDir]) hd
    cases b1 with
    | true =>
      have hdir' : (s1.pagetables root).dir (va >>> 21 >>> 9) ≠ none := by
        rw [← Nat.shiftRight_add]
        exact Option.isSome_iff_ne_none.mp hdir.symm
      rw [if_pos rfl, walkMid] at hm
      obtain ⟨rfl, hdesc', hmid⟩ := walkLevel_ok (fun t => linkMid_leaf t _)
        (fun t => linkMid_live t _) (fun pa => by rw [linkMid_mid hdir', update_self]; rfl) hm
      exact ⟨rfl, Nat.not_le.mp hva, hlive, hdesc.trans hdesc', hmid⟩
    | false =>
      cases hm
      refine ⟨rfl, Nat.not_le.mp hva, hlive, hdesc, ?_⟩
      rw [mid_of_dir_none (Option.not_isSome_iff_eq_none.mp (Bool.eq_false_iff.mp hdir.symm))]
      rfl
  · cases h

theorem walk_look_run (hva : va < maxva) (hlive : (s.pagetables root).live = true) :
    walk root va false s = .ok (((s.pagetables root).mid (va >>> 21)).isSome, s, []) := by
  unfold walk walkDir
  rw [if_neg (Nat.not_le.mpr hva), get_bind_run, if_pos hlive, bind_run_quiet (walkLevel_lookup ..)]
  cases hd : (s.pagetables root).dir (va >>> 30) with
  | none =>
    rw [mid_of_dir_none hd]
    rfl
  | some pa => rw [Option.isSome_some, if_pos rfl, walkMid, walkLevel_lookup]

/-- A walk that may not allocate only looks. -/
theorem walk_lookup (h : walk root va false s = .ok (b, s', t)) :
    s' = s ∧ t = [] ∧ b = ((s.pagetables root).mid (va >>> 21)).isSome := by
  obtain ⟨-, hva, hlive, -⟩ := walk_ok h
  rw [walk_look_run hva hlive] at h
  cases h
  exact ⟨rfl, rfl, rfl⟩

/-- Where no level-0 table exists, the PTE is zero. -/
theorem pte_of_mid_none (h : (s.pagetables root).mid (va >>> 21) = none) : s.pte root va = 0 :=
  (s.pagetables root).leaf_of_mid _ (by rw [← Nat.shiftRight_add]; exact h)

/-- A walk that stops short, allocating or not, has found no PTE. -/
theorem walk_false (h : walk root va alloc s = .ok (false, s', t)) : s'.pte root va = 0 :=
  pte_of_mid_none (Option.not_isSome_iff_eq_none.mp (Bool.eq_false_iff.mp (walk_ok h).2.2.2.2.symm))

-- ======== mappages

@[simp] theorem setLeaf_live (t : PageTable) (v w : Nat) : (t.setLeaf v w).live = t.live := by
  unfold PageTable.setLeaf
  split <;> rfl

/-- Writing a PTE that exists. -/
theorem setLeaf_leaf {t : PageTable} {v : Nat} (w : Nat) (hmid : (t.mid (v >>> 9)).isSome) :
    (t.setLeaf v w).leaf = update t.leaf v w := by
  unfold PageTable.setLeaf
  rw [dif_neg (Option.isSome_iff_ne_none.mp hmid)]

/-- The level-1 index of a page number. -/
theorem vpn_shift (va : Nat) : (va >>> 12) >>> 9 = va >>> 21 := by
  rw [← Nat.shiftRight_add]

theorem pte_setLeaf_self (w : Nat) (hmid : ((s.pagetables root).mid (va >>> 21)).isSome) :
    (s.setLeaf root va w).pte root va = w := by
  rw [← vpn_shift] at hmid
  unfold Kernel.pte Kernel.setLeaf Kernel.setTable
  dsimp only
  rw [update_self, setLeaf_leaf w hmid, update_self]

/-- `mappages` of one page has walked to the PTE, found it invalid and
written it, or has found no PTE. -/
theorem mappages_cases {r : Int} (h : mappages root va pgsize pa perm s = .ok (r, s', t)) :
    va % pgsize = 0 ∧ ((r = 0 ∧ ∃ s1, walk root va true s = .ok (true, s1, [])
        ∧ isV (s1.pte root va) = false ∧ s' = s1.setLeaf root va (pa2pte pa ||| perm ||| pteV)
        ∧ t = [(.map root va, s1)])
      ∨ (r = -1 ∧ walk root va true s = .ok (false, s', t))) := by
  unfold mappages at h
  split at h
  · cases h
  next halign =>
  refine ⟨not_not.mp halign, ?_⟩
  split at h
  · cases h
  split at h
  · cases h
  simp only [pgsize, show 4096 / 4096 = 0 + 1 from rfl, mappagesLoop] at h
  obtain ⟨b, s1, t1, t2, hw, hf, rfl⟩ := bind_ok h
  obtain ⟨rfl, -⟩ := walk_ok hw
  cases b with
  | false =>
    cases hf
    exact .inr ⟨rfl, hw⟩
  | true =>
    simp only [get_bind_run, if_true] at hf
    split at hf
    · cases hf
    next hv =>
    cases hf
    exact .inl ⟨rfl, s1, hw, Bool.not_eq_true _ ▸ hv, rfl, rfl⟩

/-- The leaves of the table after a successful `mappages` of one page. -/
theorem mappages_leaf (h : mappages root va pgsize pa perm s = .ok (0, s', t)) :
    (s'.pagetables root).leaf = update (s.pagetables root).leaf
      (va >>> 12) (pa2pte pa ||| perm ||| pteV) := by
  obtain ⟨-, ⟨-, s1, hw, -, rfl, -⟩ | ⟨hr, -⟩⟩ := mappages_cases h
  · obtain ⟨-, -, -, hdesc, hmid⟩ := walk_ok hw
    rw [← vpn_shift] at hmid
    unfold Kernel.setLeaf
    rw [Kernel.setTable_self, setLeaf_leaf _ hmid.symm, hdesc.tables.leaf root]
  · cases hr

-- ======== frames

/-- The state outside the allocator and the page tables. -/
def Kernel.beside (s : Kernel) : Kernel :=
  { s with
    freelist := []
    held := []
    mem := fun _ => fill 0
    env := []
    pagetables := fun _ => .dead }

/-- What leaves all of that alone leaves the processes alone. -/
theorem keeps_proc {α : Type} {x : K α} (h : Keeps Kernel.beside x) :
    Keeps Kernel.proc x := h.comp Kernel.proc

theorem beside_kalloc : Keeps Kernel.beside kalloc := by
  intro s r s' t h
  obtain ⟨-, fl, hd, m, e, rfl, -⟩ := kalloc_ok h
  rfl

theorem beside_kfree (pa : Nat) : Keeps Kernel.beside (kfree pa) :=
  .bind .get fun _ => .ite (.fault _) (.modify fun _ => rfl)

theorem beside_walk (root va : Nat) (alloc : Bool) : Keeps Kernel.beside (walk root va alloc) := by
  intro s b s' t h
  obtain ⟨-, -, -, hdesc, -⟩ := walk_ok h
  obtain ⟨fl, hd, m, e, pts, rfl⟩ := hdesc.shape
  rfl

theorem beside_mappages (root va size pa perm : Nat) :
    Keeps Kernel.beside (mappages root va size pa perm) := by
  have hloop : ∀ n a pa, Keeps Kernel.beside (mappagesLoop root perm n a pa) := by
    intro n
    induction n with
    | zero => intro a pa; exact .pure _
    | succ n ih =>
      intro a pa
      refine .bind (beside_walk ..) fun b => .ite ?_ (.pure _)
      refine .bind .get fun s => .ite (.fault _) ?_
      refine .bind (.note _) fun _ => ?_
      exact .bind (.modify fun _ => rfl) fun _ => ih _ _
  exact .ite (.fault _) (.ite (.fault _) (.ite (.fault _) (hloop ..)))

theorem beside_uvmunmap (root va npages : Nat) (doFree : Bool) :
    Keeps Kernel.beside (uvmunmap root va npages doFree) := by
  have hloop : ∀ n a, Keeps Kernel.beside (uvmunmapLoop root doFree n a) := by
    intro n
    induction n with
    | zero => intro a; exact .pure _
    | succ n ih =>
      intro a
      refine .bind (.bind (beside_walk ..) fun b => .ite ?_ (.pure _)) fun _ => ih _
      refine .bind .get fun s => .ite ?_ (.pure _)
      refine .bind (.note _) fun _ => ?_
      exact .ite (.bind (beside_kfree _) fun _ => .modify fun _ => rfl) (.modify fun _ => rfl)
  exact .ite (.fault _) (hloop ..)

theorem beside_uvmdealloc (root oldsz newsz : Nat) :
    Keeps Kernel.beside (uvmdealloc root oldsz newsz) :=
  .ite (.pure _) (.ite (.bind (beside_uvmunmap ..) fun _ => .pure _) (.pure _))

theorem beside_freewalk (root : Nat) : Keeps Kernel.beside (freewalk root) := by
  have hall : ∀ l, Keeps Kernel.beside (kfreeAll l) := by
    intro l
    induction l with
    | nil => exact .pure _
    | cons pa rest ih => exact .bind (beside_kfree _) fun _ => ih
  refine .bind .get fun s => .ite (.fault _) (.ite (.fault _) (.ite (.fault _) ?_))
  exact .bind (hall _) fun _ => .modify fun _ => rfl

theorem beside_uvmfree (root sz : Nat) : Keeps Kernel.beside (uvmfree root sz) :=
  .ite (.bind (beside_uvmunmap ..) fun _ => beside_freewalk _) (beside_freewalk _)

end GemOS
