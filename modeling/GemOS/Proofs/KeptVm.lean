/-
The page-table code (`vm.c`) on the page machine: what each function does
is a sequence of moves, so whatever the moves keep, the functions keep.

`J` is any invariant of the moves (`Kept`). Each triple says which pages
are in hand before and after. The functions here leave no note that `J`
needs an assumption about, except through the moves themselves.
-/
import GemOS.Proofs.OwnMoves

namespace GemOS

open Prog

variable {G : Mark → Kernel → Prop} {J : Ghost → Notes Mark Kernel → Kernel → Prop} {g : Ghost}

-- ======== aside

theorem Aside.refl (s : Kernel) : Aside s s := { Steady.refl s with resident := fun _ _ => rfl }

variable {s s' : Kernel} {proc : ProcId → Proc} {n t : Notes Mark Kernel}
  {root va pa perm a sz newsz oldsz old xperm new : Nat}

theorem Aside.trans {s1 s2 : Kernel} (h : Aside s s1) (h' : Aside s1 s2) : Aside s s2 :=
  { kend := h'.kend.trans h.kend
    trampoline := h'.trampoline.trans h.trampoline
    pages := h'.pages.trans h.pages
    tables := h'.tables.trans h.tables
    sz := fun p => (h'.sz p).trans (h.sz p)
    pagetable := fun p => (h'.pagetable p).trans (h.pagetable p)
    trapframe := fun p => (h'.trapframe p).trans (h.trapframe p)
    procs := fun p hp => h'.procs p (h.procs p hp)
    frames := fun i => (h'.frames i).trans (h.frames i)
    swaps := h'.swaps.trans h.swaps
    idle := fun hi => h'.idle (h.idle hi)
    resident := fun p hp =>
      (h'.resident p (by rw [h.pagetable]; exact hp)).trans (h.resident p hp) }

/-- The rest of the kernel has its turn. -/
theorem Aside.turn {fl hd : List Nat} {m : Nat → Page} {e : List (List EnvOp)}
    (hp : (fl ++ hd).Perm (s.freelist ++ s.held)) :
    Aside s { s with freelist := fl, held := hd, mem := m, env := e } :=
  { Aside.refl s with pages := hp, idle := fun h => h.congr rfl rfl }

theorem Aside.interfered (s : Kernel) : Aside s s.interfered := by
  obtain ⟨fl, hd, m, e, hs, hp⟩ := s.interfered_shape
  rw [hs]
  exact .turn hp

/-- Bytes are written. -/
theorem Aside.mem (s : Kernel) (m : Nat → Page) : Aside s { s with mem := m } := .turn (.refl _)

/-- Only statistics of faults and swaps change. -/
theorem Aside.stats (h : ∀ p, (proc p).bare = (s.proc p).bare) : Aside s { s with proc := proc } :=
  { Aside.refl s with
    sz := fun p => (Proc.bare_eq (h p)).2.1
    pagetable := fun p => (Proc.bare_eq (h p)).2.2.1
    trapframe := fun p => (Proc.bare_eq (h p)).2.2.2.1
    procs := fun p hp => hp.congr (h p)
    idle := fun h => h.congr rfl rfl
    resident := fun p _ => (Proc.bare_eq (h p)).2.2.2.2 }

-- ======== allocator

/-- A page more in hand, if one was found. -/
def Ghost.grab (g : Ghost) : Option Nat → Ghost
  | none => g
  | some pa => { g with hand := pa :: g.hand }

variable (hK : Kept G J)

include hK

/-- A move without notes. -/
theorem Kept.quiet {g' : Ghost} (hJ : J g n s) (m : Move g s [] g' s') : J g' n s' := by
  have h := hK.move hJ m (by simp)
  rwa [List.append_nil] at h

/-- A modification that ownership does not see. -/
theorem Kept.aside {f : Kernel → Kernel}
    (hf : ∀ s, Aside s (f s)) : Triple G (J g) (modify f : K Unit) fun _ => J g :=
  .modify fun _ s hJ => hK.quiet hJ (.aside (hf s))

/-- A page from the free list goes into the hand. -/
theorem Kept.kalloc (g : Ghost) : Triple G (J g) kalloc fun r => J (g.grab r) := by
  intro n s r s' t hJ hrun _
  rw [kalloc_run] at hrun
  have hturn := hK.quiet hJ (.aside (.interfered s))
  cases hfree : s.interfered.freelist with
  | nil =>
    rw [hfree] at hrun
    cases hrun
    rw [List.append_nil]
    exact hturn
  | cons pa rest =>
    rw [hfree] at hrun
    cases hrun
    rw [List.append_nil]
    exact hK.quiet hturn (.take hfree)

/-- A page in hand goes to the free list. -/
theorem Kept.kfree (g : Ghost) (pa : Nat) :
    Triple G (J (g.grab (some pa))) (kfree pa) fun _ => J g := by
  intro n s u s' t hJ hrun _
  obtain ⟨rfl, rfl⟩ := kfree_ok hrun
  rw [List.append_nil]
  exact hK.quiet hJ (.give rfl)

-- ======== walk

omit hK in
theorem tables_kalloc : Keeps Kernel.pagetables kalloc := by
  intro s r s' t h
  obtain ⟨-, fl, hd, m, e, rfl, -⟩ := kalloc_ok h
  rfl

theorem Kept.walkLevel {entry : PageTable → Option Nat}
    {link : PageTable → Nat → PageTable} (hlive : ∀ t pa, (link t pa).live = t.live)
    (hmove : ∀ pa s, (s.pagetables root).live = true → entry (s.pagetables root) = none →
      Move (g.grab (some pa)) s [] g
        ((s.memset pa 0).setTable root (link (s.pagetables root) pa))) (alloc : Bool) :
    Triple G (fun n s => J g n s ∧ (s.pagetables root).live = true)
      (walkLevel root entry link alloc) fun _ n s => J g n s ∧ (s.pagetables root).live = true := by
  refine .get_bind fun s0 => .ite (fun _ => .pure fun n s h => h.1) fun hd =>
    .ite (fun _ => .pure fun n s h => h.1) fun _ => ?_
  have hnone := Option.not_isSome_iff_eq_none.mp hd
  refine .bind (((hK.kalloc g).keep tables_kalloc fun pts =>
    (pts root).live = true ∧ entry (pts root) = none).pre ?_) fun r => ?_
  · rintro n s ⟨⟨hJ, hlive⟩, rfl⟩
    exact ⟨hJ, hlive, hnone⟩
  · cases r with
    | none => exact .pure fun n s h => ⟨h.1, h.2.1⟩
    | some pa =>
      refine .bind (.modify fun n s h => ⟨hK.quiet h.1 (hmove pa s h.2.1 h.2.2), ?_⟩)
        fun _ => .pure fun n s h => h
      rw [Kernel.setTable_self, hlive]
      exact h.2.1

/-- What is known of a PTE after a walk to it. -/
def Found (s : Kernel) (root va : Nat) (b : Bool) : Prop :=
  (s.pagetables root).live = true ∧ va < maxva
    ∧ (b = true → ((s.pagetables root).mid (va >>> 21)).isSome)
    ∧ (b = false → s.pte root va = 0)

omit hK in
theorem found_of_walk {alloc : Bool} {b : Bool}
    (h : walk root va alloc s = .ok (b, s', t)) : Found s' root va b := by
  obtain ⟨-, hva, hlive, hdesc, hmid⟩ := walk_ok h
  exact ⟨(hdesc.tables.live root).trans hlive, hva, fun hb => hmid.symm.trans hb,
    fun hb => walk_false (hb ▸ h)⟩

/-- `walk` adds tables from the free list. -/
theorem Kept.walk (g : Ghost) (root va : Nat) (alloc : Bool) :
    Triple G (J g) (walk root va alloc) fun b n s => J g n s ∧ Found s root va b := by
  refine ((Triple.and_run (R := fun _ => True) ?_
    fun _ h => found_of_walk h).pre fun _ _ h => ⟨h, trivial⟩)
  refine .ite (fun _ => .fault) fun _ => .get_bind fun s0 => .ite (fun hlive => ?_) fun _ => .fault
  refine .bind ((hK.walkLevel (linkDir_live · _) (fun _ _ => .linkDir rfl) alloc).pre ?_)
    fun b => .ite (fun _ => ?_) fun _ => .pure fun n s h => h.1
  · rintro n s ⟨hJ, rfl⟩
    exact ⟨hJ, hlive⟩
  · exact (hK.walkLevel (linkMid_live · _) (fun _ _ => .linkMid rfl) alloc).post fun _ _ _ h => h.1

-- ======== mappages

/-- Where `R` holds of the processes, mapping `pa` at `va` is a move. -/
def MapsBy (R : (ProcId → Proc) → Prop) (g1 g2 : Ghost) (root va pa perm : Nat) : Prop :=
  ∀ s : Kernel, R s.proc → (s.pagetables root).live = true →
    ((s.pagetables root).mid (va >>> 21)).isSome → va % pgsize = 0 →
    isV (s.pte root va) = false →
    Move g1 s [(.map root va, s)] g2 (s.setLeaf root va (pa2pte pa ||| perm ||| pteV))

/-- What `mappages` of one page does, by whatever move. -/
theorem Kept.mappagesBy {g1 g2 : Ghost}
    {R : (ProcId → Proc) → Prop} (hmove : MapsBy R g1 g2 root va pa perm) :
    Triple G (fun n s => J g1 n s ∧ R s.proc) (mappages root va pgsize pa perm) fun r n s =>
        (r = 0 ∧ J g2 n s ∧ s.pte root va = pa2pte pa ||| perm ||| pteV)
        ∨ (r = -1 ∧ J g1 n s ∧ R s.proc ∧ s.pte root va = 0) := by
  rintro n s r s' t ⟨hJ, hR⟩ hrun hG
  have hwalk := (hK.walk g1 root va true).keep (keeps_proc (beside_walk root va true)) R
  obtain ⟨halign, ⟨rfl, s1, hw, hV, rfl, rfl⟩ | ⟨rfl, hw⟩⟩ := mappages_cases hrun
  · obtain ⟨⟨hJ1, hlive, -, hmid, -⟩, hR1⟩ := hwalk ⟨hJ, hR⟩ hw (by simp)
    rw [List.append_nil] at hJ1
    refine .inl ⟨rfl, ?_, pte_setLeaf_self _ (hmid rfl)⟩
    exact hK.move hJ1 (hmove s1 hR1 hlive (hmid rfl) halign hV) hG
  · obtain ⟨⟨hJ1, -, -, -, hpte⟩, hR1⟩ := hwalk ⟨hJ, hR⟩ hw hG
    exact .inr ⟨rfl, hJ1, hR1, hpte rfl⟩

/-- No process with the table at `root` has anything at `va` or above. -/
def Above (root va : Nat) (proc : ProcId → Proc) : Prop :=
  ∀ p, (proc p).pagetable = some root → (proc p).sz ≤ va

omit hK in
theorem Above.mono {b : Nat} (h : Above root a proc) (hle : a ≤ b) : Above root b proc :=
  fun p hp => (h p hp).trans hle

/-- A user page is mapped. -/
theorem Kept.mappages (hpend : g.pending = none) (hva : va < trapframeVa) (hperm : perm < 1024) :
    Triple G (fun n s => J (g.grab (some pa)) n s ∧ Above root va s.proc)
      (mappages root va pgsize pa perm)
      fun r n s => (r = 0 ∧ J g n s) ∨ (r = -1 ∧ J (g.grab (some pa)) n s) := by
  intro n s r s' t h hrun hG
  have hmove : MapsBy (Above root va) (g.grab (some pa)) g root va pa perm :=
    fun s habove hlive hmid halign hV => .map rfl hpend habove hlive hmid hva halign hV hperm
  rcases hK.mappagesBy hmove h hrun hG with ⟨h0, hJ', -⟩ | ⟨h1, hJ', -⟩
  · exact .inl ⟨h0, hJ'⟩
  · exact .inr ⟨h1, hJ'⟩

-- ======== unmapping

/-- A page is unmapped, by whatever move `hmove` says. -/
theorem Kept.uvmunmapPage {doFree : Bool}
    (hmove : ∀ s, (s.pagetables root).live = true → ((s.pagetables root).mid (a >>> 21)).isSome →
      isV (s.pte root a) = true → Move g s [(.unmap root a, s)] g
        ((if doFree then s.push (pte2pa (s.pte root a)) else s).setLeaf root a
          0)) : Triple G (J g) (uvmunmapPage root a doFree) fun _ => J g := by
  intro n s u s' t hJ hrun hG
  unfold GemOS.uvmunmapPage at hrun
  obtain ⟨b, s1, t1, t2, hw, hrest, rfl⟩ := bind_ok hrun
  obtain ⟨hlive, -, hmid, -⟩ := found_of_walk hw
  obtain ⟨rfl, rfl, -⟩ := walk_lookup hw
  cases b with
  | false =>
    cases hrest
    rw [List.append_nil, List.append_nil]
    exact hJ
  | true =>
    simp only [if_true, get_bind_run] at hrest
    split at hrest
    · rename_i hV
      have hm := hK.move hJ (hmove s1 hlive (hmid rfl) hV)
      obtain ⟨_, s2, t3, t4, hnote, hfree, rfl⟩ := bind_ok hrest
      cases hnote
      cases doFree with
      | true =>
        obtain ⟨_, s3, t5, t6, hk, hset, rfl⟩ := bind_ok hfree
        obtain ⟨rfl, rfl⟩ := kfree_ok hk
        cases hset
        exact hm hG
      | false =>
        cases hfree
        exact hm hG
    · cases hrest
      rw [List.append_nil, List.append_nil]
      exact hJ

/-- The loop of `uvmunmap` over a range of user pages. -/
theorem Kept.uvmunmapLoop (n : Nat) : ∀ {a : Nat}, a % pgsize = 0 → a + n * pgsize ≤ trapframeVa →
    Triple G (J g) (uvmunmapLoop root true n a) fun _ => J g := by
  induction n with
  | zero => intro a _ _; exact .pure fun _ _ h => h
  | succ n ih =>
    intro a halign hend
    have hbound : a < trapframeVa ∧ (a + pgsize) % pgsize = 0
        ∧ a + pgsize + n * pgsize ≤ trapframeVa := by
      simp only [pgsize] at *
      omega
    refine .bind (hK.uvmunmapPage fun s hlive hmid hV => ?_) fun _ => ih hbound.2.1 hbound.2.2
    exact .unmap hlive hmid hbound.1 halign hV

/-- Page after page is unmapped and freed. -/
theorem Kept.uvmunmap {n : Nat} (hend : va + n * pgsize ≤ trapframeVa) :
    Triple G (J g) (uvmunmap root va n true) fun _ => J g := by
  refine .ite (fun _ => .fault) fun halign => ?_
  have hcount : ((va + n * pgsize) % 2 ^ 64 - va) / pgsize = n := by
    simp only [trapframeVa, trampolineVa, maxva, pgsize] at *
    omega
  rw [hcount]
  exact hK.uvmunmapLoop n (not_not.mp halign) hend

/-- A fixed mapping of a spare table is removed. -/
theorem Kept.uvmunmapFixed (hspare : g.spare = some (root, none))
    (hva : va = trampolineVa ∨ va = trapframeVa) :
    Triple G (J g) (GemOS.uvmunmap root va 1 false) fun _ => J g := by
  refine .ite (fun _ => .fault) fun _ => ?_
  have hcount : ((va + 1 * pgsize) % 2 ^ 64 - va) / pgsize = 1 ∧ trapframeVa ≤ va ∧ va < maxva := by
    simp only [trapframeVa, trampolineVa, maxva, pgsize] at *
    omega
  rw [hcount.1]
  refine .bind (hK.uvmunmapPage fun s _ _ _ => ?_) fun _ => .pure fun _ _ h => h
  exact .unmapFixed hspare hcount.2.1 hcount.2.2

omit hK in
theorem pgroundup_le (h : sz ≤ trapframeVa) : pgroundup sz ≤ trapframeVa ∧ sz ≤ pgroundup sz
      ∧ pgroundup sz % pgsize = 0 := by
  simp only [pgroundup, trapframeVa, trampolineVa, maxva, pgsize] at *
  omega

omit hK in
/-- Page counts of user ranges fit in an `int`. -/
theorem countArg_of_lt {n : Nat} (h : n < 2 ^ 31) : countArg n = n := by
  unfold countArg Int.bmod
  dsimp only
  split <;> omega

theorem Kept.uvmdealloc (hold : oldsz ≤ trapframeVa) :
    Triple G (J g) (uvmdealloc root oldsz newsz) fun r n s => J g n s ∧ r ≤ trapframeVa := by
  refine .ite (fun _ => .pure fun _ _ h => ⟨h, hold⟩) fun hlt =>
    .ite (fun hround => ?_) fun _ => .pure fun _ _ h => ⟨h, by omega⟩
  have hnew := @pgroundup_le newsz (by omega)
  have hup := pgroundup_le hold
  have hcount : countArg ((pgroundup oldsz - pgroundup newsz) / pgsize)
      = (pgroundup oldsz - pgroundup newsz) / pgsize := by
    grind [countArg_of_lt]
  rw [hcount]
  refine .bind (hK.uvmunmap ?_) fun _ => .pure fun _ _ h => ⟨h, by omega⟩
  simp only [trapframeVa, trampolineVa, maxva, pgsize] at *
  omega

-- ======== growing

/-- A table with its fixed mappings: that of a process, or one ready to
become it. -/
def Settled (g : Ghost) (root : Nat) (proc : ProcId → Proc) : Prop :=
  ∃ p, (g.dying ≠ some p ∧ (proc p).pagetable = some root) ∨ g.spare = some (root, some p)

omit hK in
theorem Own.settled (h : Own g s) (hs : Settled g root s.proc) :
    isV (s.pte root trapframeVa) = true := by
  obtain ⟨p, hp | hp⟩ := hs
  · exact (h.attached p root hp).2.1.trapframe.1
  · exact ((h.spare root _ hp).2 p rfl).trapframe.1

/-- `TRAPFRAME` is taken: no allocation reaches beyond it. -/
theorem Kept.mappagesTop : Triple G (fun n s => J g n s ∧ Settled g root s.proc)
      (GemOS.mappages root trapframeVa pgsize pa perm) fun _ _ _ => False := by
  rintro n s r s' t ⟨hJ, hs⟩ hrun _
  have hV := (hK.own hJ).settled hs
  have hsame : ∀ {b s1 t1}, GemOS.walk root trapframeVa true s = .ok (b, s1, t1) →
      s1.pte root trapframeVa = s.pte root trapframeVa := by
    intro b s1 t1 hw
    obtain ⟨-, -, -, hdesc, -⟩ := walk_ok hw
    exact congrFun (hdesc.tables.leaf root) _
  obtain ⟨-, ⟨-, s1, hw, hinv, -⟩ | ⟨-, hw⟩⟩ := mappages_cases hrun
  · rw [hsame hw, hV] at hinv
    cases hinv
  · have hpte := (found_of_walk hw).2.2.2 rfl
    rw [hsame hw] at hpte
    rw [hpte, isV_zero] at hV
    cases hV

theorem Kept.uvmallocLoop (hpend : g.pending = none)
    (hperm : pteR ||| pteU ||| xperm < 1024) (n : Nat) :
    ∀ {a : Nat}, a % pgsize = 0 → a ≤ trapframeVa → newsz ≤ a + n * pgsize →
    Triple G (fun m s => J g m s ∧ Settled g root s.proc ∧ Above root a s.proc)
      (uvmallocLoop root old newsz xperm n a) fun r m s => J g m s ∧ r ≤ trapframeVa := by
  induction n with
  | zero =>
    intro a _ ha hn
    exact .pure fun m s h => ⟨h.1, by omega⟩
  | succ n ih =>
    intro a halign ha hn
    refine .ite (fun hlt => ?_) fun hge => .pure fun m s h => ⟨h.1, by omega⟩
    refine .bind ((hK.kalloc g).keep (keeps_proc beside_kalloc) fun proc =>
      Settled g root proc ∧ Above root a proc) fun r => ?_
    cases r with
    | none =>
      refine .bind ((hK.uvmdealloc ha).pre fun m s h => h.1) fun _ => ?_
      exact .pure fun m s h => ⟨h.1, Nat.zero_le _⟩
    | some mem =>
      have hzero := (hK.aside (g := g.grab (some mem))
        fun s => .mem s (Function.update s.mem mem (fill 0))).keep
        (.modify (f := Kernel.proc) fun _ => rfl)
        fun proc => Settled g root proc ∧ Above root a proc
      refine .bind hzero fun _ => ?_
      by_cases htop : a < trapframeVa
      · refine .bind (((hK.mappages hpend htop hperm).keep
          (keeps_proc (beside_mappages ..)) fun proc => Settled g root proc ∧ Above root a proc).pre
          fun m s h => ⟨⟨h.1, h.2.2⟩, h.2⟩) fun r => ?_
        refine .ite (fun hr => ?_) fun hr => ?_
        · refine .bind ((hK.kfree g mem).pre ?_) fun _ => ?_
          · grind
          · refine .bind (hK.uvmdealloc ha) fun _ => ?_
            exact .pure fun m s h => ⟨h.1, Nat.zero_le _⟩
        · refine (ih ?_ ?_ ?_).pre ?_
          · rw [Nat.add_mod_right]
            exact halign
          · simp only [trapframeVa, trampolineVa, maxva, pgsize] at *
            omega
          · simp only [pgsize] at *
            omega
          · rintro m s ⟨⟨-, hJ⟩ | ⟨h1, -⟩, hs, habove⟩
            · exact ⟨hJ, hs, habove.mono (Nat.le_add_right ..)⟩
            · omega
      · obtain rfl : a = trapframeVa := by omega
        refine .bind (hK.mappagesTop.pre fun m s h => ⟨h.1, h.2.1⟩) fun r => ?_
        exact fun m s _ _ _ h => h.elim

/-- Pages are mapped above the size, or all taken back. -/
theorem Kept.uvmalloc (hpend : g.pending = none)
    (hperm : pteR ||| pteU ||| xperm < 1024) (hold : oldsz ≤ trapframeVa) :
    Triple G (fun n s => J g n s ∧ Settled g root s.proc ∧ Above root oldsz s.proc)
      (uvmalloc root oldsz newsz xperm) fun r n s => J g n s ∧ r ≤ trapframeVa := by
  obtain ⟨hup, hle, halign⟩ := pgroundup_le hold
  refine .ite (fun _ => .pure fun n s h => ⟨h.1, hold⟩) fun _ => ?_
  refine (hK.uvmallocLoop hpend hperm _ halign hup ?_).pre fun n s h => ⟨h.1, h.2.1, h.2.2.mono hle⟩
  have := Nat.lt_div_mul_add (a := newsz - pgroundup oldsz) (b := pgsize) (by decide)
  simp only [Nat.add_mul]
  omega

-- ======== freeing

omit hK in
theorem kfreeAll_ok (l : List Nat) : ∀ {s s' : Kernel} {u : Unit}
    {t : Notes Mark Kernel}, kfreeAll l s = .ok (u, s', t) →
    t = [] ∧ ∃ m, s' = { s with freelist := l.reverse ++ s.freelist, mem := m } := by
  induction l with
  | nil =>
    intro s s' u t h
    cases h
    exact ⟨rfl, s.mem, rfl⟩
  | cons pa rest ih =>
    intro s s' u t h
    obtain ⟨_, s1, t1, t2, hk, hrest, rfl⟩ := bind_ok h
    obtain ⟨rfl, rfl⟩ := kfree_ok hk
    obtain ⟨rfl, m, rfl⟩ := ih hrest
    refine ⟨rfl, m, ?_⟩
    rw [List.reverse_cons, List.append_assoc]
    rfl

omit hK in
theorem freewalk_ok {u : Unit} (h : freewalk root s = .ok (u, s', t)) :
    t = [] ∧ ∃ m, s' = s.freedTable root m := by
  simp only [freewalk, get_bind_run] at h
  split at h
  · cases h
  · split at h
    · cases h
    · split at h
      · cases h
      · obtain ⟨_, s1, t1, t2, hk, hset, rfl⟩ := bind_ok h
        obtain ⟨rfl, m, rfl⟩ := kfreeAll_ok _ hk
        cases hset
        exact ⟨rfl, m, rfl⟩

/-- Freeing a spare table. -/
theorem Kept.freewalk (hspare : g.spare = some (root, none)) :
    Triple G (J g) (freewalk root) fun _ => J { g with spare := none } := by
  intro n s u s' t hJ hrun _
  obtain ⟨rfl, m, rfl⟩ := freewalk_ok hrun
  rw [List.append_nil]
  exact hK.quiet hJ (.destroy hspare)

/-- A spare table goes back with its pages. -/
theorem Kept.uvmfree (hspare : g.spare = some (root, none)) (hsz : sz ≤ trapframeVa) :
    Triple G (J g) (uvmfree root sz) fun _ => J { g with spare := none } := by
  obtain ⟨hup, -, -⟩ := pgroundup_le hsz
  refine .ite (fun _ => .bind (hK.uvmunmap ?_) fun _ => hK.freewalk hspare)
    fun _ => hK.freewalk hspare
  have := Nat.div_mul_le_self (pgroundup sz) pgsize
  omega

-- ======== copying

omit hK in
theorem pteFlags_lt (w : Nat) : pteFlags w < 1024 := Nat.lt_succ_of_le Nat.and_le_right

theorem Kept.uvmcopyLoop (hpend : g.pending = none) (n : Nat) : ∀ {i : Nat},
    i + n * pgsize ≤ trapframeVa →
    Triple G (fun m s => J g m s ∧ Above new i s.proc) (uvmcopyLoop old new n i) fun _ => J g := by
  induction n with
  | zero => intro i _; exact .pure fun _ _ h => h.1
  | succ n ih =>
    intro i hend
    have hnext : i < trapframeVa ∧ i + pgsize + n * pgsize ≤ trapframeVa := by
      simp only [pgsize] at *
      omega
    have hback : 0 + i / pgsize * pgsize ≤ trapframeVa := by
      have := Nat.div_mul_le_self i pgsize
      omega
    have hrest := (ih hnext.2).pre fun m s (h : J g m s ∧ Above new i s.proc) =>
      ⟨h.1, h.2.mono (Nat.le_add_right ..)⟩
    refine .bind (((hK.walk g old i false).post fun _ _ _ h => h.1).keep
      (keeps_proc (beside_walk ..)) (Above new i)) fun b => ?_
    refine .ite (fun _ => .get_bind fun s0 => .ite (fun _ => ?_) fun _ => ?_) fun _ => hrest
    · refine .bind (((hK.kalloc g).keep (keeps_proc beside_kalloc)
        (Above new i)).pre fun _ _ h => h.1) fun r => ?_
      cases r with
      | none =>
        exact .bind ((hK.uvmunmap hback).pre fun _ _ h => h.1) fun _ => .pure fun _ _ h => h
      | some mem =>
        refine .bind (M := fun _ m s => J (g.grab (some mem)) m s
          ∧ Above new i s.proc) (.modify fun m s h =>
            ⟨hK.quiet h.1 (.aside (.mem s _)), h.2⟩) fun _ => ?_
        refine .bind (((hK.mappages hpend hnext.1 (pteFlags_lt _)).keep
          (keeps_proc (beside_mappages ..)) (Above new i)).pre fun m s h => ⟨h, h.2⟩) fun r => ?_
        refine .ite (fun hr => ?_) fun hr => hrest.pre ?_
        · refine .bind ((hK.kfree g mem).pre ?_) fun _ =>
            .bind (hK.uvmunmap hback) fun _ => .pure fun _ _ h => h
          rintro m s ⟨⟨h0, -⟩ | ⟨-, hJ⟩, -⟩
          · exact absurd h0 hr
          · exact hJ
        · grind
    · exact hrest.pre fun _ _ h => h.1

theorem Kept.uvmcopy (hpend : g.pending = none) (hsz : sz ≤ trapframeVa) :
    Triple G (fun n s => J g n s ∧ Above new 0 s.proc) (uvmcopy old new sz) fun _ => J g := by
  refine hK.uvmcopyLoop hpend _ ?_
  simp only [trapframeVa, trampolineVa, maxva, pgsize] at *
  omega

-- ======== looking

theorem Kept.uvmclear {x : Option ProcId}
    (hspare : g.spare = some (root, x)) (hva : va < trapframeVa) :
    Triple G (J g) (uvmclear root va) fun _ => J g := by
  refine .bind ((hK.walk g root va false).post fun _ _ _ h => h.1) fun b =>
    .ite (fun _ => .modify fun n s hJ => ?_) fun _ => .fault
  exact hK.quiet hJ (.guard hspare hva)

theorem Kept.walkaddr : Triple G (J g) (walkaddr root va) fun _ => J g := by
  refine .ite (fun _ => .pure fun _ _ h => h) fun _ => ?_
  refine .bind ((hK.walk g root va false).post fun _ _ _ h => h.1) fun b =>
    .ite (fun _ => .get_bind fun s0 => ?_) fun _ => .pure fun _ _ h => h
  exact .ite (fun _ => .pure fun _ _ h => h.1) fun _ => .pure fun _ _ h => h.1

theorem Kept.ismapped : Triple G (J g) (ismapped root va) fun b n s =>
      J g n s ∧ (b = true → isV (s.pte root va) = true) := by
  refine .bind ((hK.walk g root va false).post fun _ _ _ h => h.1) fun b =>
    .ite (fun _ => .get_bind fun s0 => ?_) fun _ => ?_
  · refine .pure ?_
    rintro n s ⟨hJ, rfl⟩
    exact ⟨hJ, fun hb => hb⟩
  · exact .pure fun _ _ h => ⟨h, nofun⟩

end GemOS
