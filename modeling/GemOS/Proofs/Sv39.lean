/-
The page table in memory is a finite map.

`entry s ρ k` is word `k` of the level-0 table at path `ρ`, or zero when
there is no such table; a fresh table is zeroed, so creating one changes
no entry. `Kept` says that a program has changed no entry and left the
tables apart; `walk` does that even when it runs out of memory half way.
The other two programs store single entries, and the three index fields
of an address determine its page.
-/
import GemOS.Kernel.Sv39
import GemOS.Proofs.Pte

namespace GemOS.Sv39

open Function Prog

-- ======== the indices

theorem px_eq (level va : Nat) : px level va = va / 2 ^ (12 + 9 * level) % 512 := by
  unfold px
  rw [Nat.shiftRight_eq_div_pow, show (0x1FF : Nat) = 2 ^ 9 - 1 from rfl,
    Nat.and_two_pow_sub_one_eq_mod]

/-- The indices that lead to the table of `level`. -/
def path (va : Nat) : Nat → List Nat
  | 0 => [px 2 va, px 1 va]
  | 1 => [px 2 va]
  | _ => []

variable {level a p k q va n : Nat} {s s' : Mem} {t : Notes Use Mem}
  {r : Option (Nat × Nat)} {m : PageMap} {u : Unit} {doFree : Bool}

theorem path_step (va : Nat) (h : level < 2) :
    path va level = path va (level + 1) ++ [px (level + 1) va] := by
  obtain rfl | rfl : level = 0 ∨ level = 1 := by omega
  · rfl
  · rfl

theorem path_length (va : Nat) (h : level ≤ 2) : (path va level).length = 2 - level := by
  obtain rfl | rfl | rfl : level = 0 ∨ level = 1 ∨ level = 2 := by omega
  · rfl
  · rfl
  · rfl

/-- The three fields of an address below `MAXVA` determine its page. -/
theorem page_of_path {b : Nat} (ha : a < maxva) (hb : b < maxva)
    (hpath : path a 0 = path b 0) (hpx : px 0 a = px 0 b) : a / pgsize = b / pgsize := by
  unfold path at hpath
  obtain ⟨h2, h1⟩ : px 2 a = px 2 b ∧ px 1 a = px 1 b := by
    simpa using hpath
  rw [px_eq, px_eq] at h2 h1 hpx
  simp only [maxva, pgsize] at *
  omega

-- ======== the words

section words

variable (s : Mem)

theorem set_self (p i w : Nat) : (s.set p i w).word p i = w := by
  unfold Mem.set
  dsimp only
  rw [update_self, update_self]

variable {a p : Nat}

theorem set_of_ne {i j : Nat} (w : Nat) (h : a ≠ p ∨ j ≠ i) :
    (s.set p i w).word a j = s.word a j := by
  unfold Mem.set
  dsimp only
  by_cases ha : a = p
  · rw [ha, update_self, update_of_ne (h.resolve_left fun hne => hne ha)]
  · rw [update_of_ne ha]

theorem setPage_self (p : Nat) (f : Nat → Nat) : (s.setPage p f).word p = f := update_self ..

theorem setPage_of_ne (f : Nat → Nat) (h : a ≠ p) :
    (s.setPage p f).word a = s.word a := update_of_ne h ..

end words

-- ======== the entries

/-- Word `k` of the level-0 table at path `ρ`. -/
def Mem.entry (s : Mem) (ρ : List Nat) (k : Nat) : Nat :=
  (descend link s.word s.root ρ).elim 0 fun p => s.word p k

/-- The PTE of an address, zero if there is no table for it. -/
def Mem.pteOf (s : Mem) (va : Nat) : Nat := s.entry (path va 0) (px 0 va)

abbrev Mem.Apart (s : Mem) : Prop := Radix link s.word s.root 2

/-- No entry has changed. -/
structure Kept (s s' : Mem) : Prop where
  root : s'.root = s.root
  apart : s'.Apart
  entry : ∀ ρ k, ρ.length = 2 → s'.entry ρ k = s.entry ρ k

theorem Kept.trans {s1 s2 s3 : Mem} (h : Kept s1 s2) (h' : Kept s2 s3) : Kept s1 s3 :=
  ⟨h'.root.trans h.root, h'.apart, fun ρ k hρ => (h'.entry ρ k hρ).trans (h.entry ρ k hρ)⟩

/-- The same words in the tables. -/
theorem Kept.of_word (h : s.Apart) (hroot : s'.root = s.root)
    (hword : s'.word = s.word) : Kept s s' := by
  obtain ⟨root, word, env, junk, calls, kend⟩ := s'
  dsimp only at hroot hword
  subst hroot hword
  exact ⟨rfl, h, fun _ _ _ => rfl⟩

/-- A page that is no table is overwritten. -/
theorem Kept.setPage (h : s.Apart) (hp : ¬ s.Table p) (f : Nat → Nat) : Kept s (s.setPage p f) := by
  have hmem : ∀ q, q ≠ p → (s.setPage p f).word q = s.word q := fun q hq => setPage_of_ne s f hq
  have hdesc : ∀ ρ : List Nat, ρ.length ≤ 2 + 1 → descend link (s.setPage p f).word s.root ρ
        = descend link s.word s.root ρ :=
    fun ρ hρ => descend_other hp hmem hρ
  refine ⟨rfl, h.congr fun ρ hρ => hdesc ρ (by omega), fun ρ k hρ => ?_⟩
  unfold Mem.entry
  rw [show (s.setPage p f).root = s.root from rfl, hdesc ρ (by omega)]
  cases hq : descend link s.word s.root ρ with
  | none => rfl
  | some q =>
    have hqp : q ≠ p := fun heq => hp ⟨ρ, by omega, heq ▸ hq⟩
    show (s.setPage p f).word q k = s.word q k
    rw [hmem q hqp]

theorem link_zero : link 0 = none := rfl

/-- The word `walk` stores is a link to the page. -/
theorem link_pa2pte (halign : p % pgsize = 0) (hlt : p < 2 ^ 64) :
    link (pa2pte p ||| pteV) = some p := by
  have hpa : pte2pa (pa2pte p ||| pteV) = p := by
    rw [pte2pa_or _ (by decide)]
    unfold pte2pa pa2pte
    simp only [Nat.shiftLeft_eq, Nat.shiftRight_eq_div_pow, pgsize] at *
    omega
  unfold link
  rw [if_pos (isV_or_pteV _), hpa]

/-- A zeroed page is linked in as a table. -/
theorem Kept.link {π : List Nat} (h : s.Apart)
    (hq : descend link s.word s.root π = some q) (hπ : π.length < 2)
    (hk : isV (s.word q k) = false) (hp : ¬ s.Table p) (halign : p % pgsize = 0)
    (hlt : p < 2 ^ 64) :
    Kept s ((s.setPage p fun _ => 0).set q k (pa2pte p ||| pteV)) ∧ descend Sv39.link
        ((s.setPage p fun _ => 0).set q k (pa2pte p ||| pteV)).word s.root (π ++ [k]) = some p := by
  have hqp : q ≠ p := fun heq => hp ⟨π, by omega, heq ▸ hq⟩
  generalize hs' : (s.setPage p fun _ => 0).set q k (pa2pte p ||| pteV) = s'
  have hroot : s'.root = s.root := by rw [← hs']; rfl
  have hstored : s'.word q k = pa2pte p ||| pteV := by
    rw [← hs', set_self]
  have hzero : ∀ i, s'.word p i = 0 := by
    intro i
    rw [← hs', set_of_ne _ _ (.inl hqp.symm), setPage_self]
  have hother : ∀ a j, a ≠ p → a ≠ q ∨ j ≠ k → s'.word a j = s.word a j := by
    intro a j hap haq
    rw [← hs', set_of_ne _ _ haq, setPage_of_ne _ _ hap]
  have hL : Grafted Sv39.link s.word s'.word s.root 2 π q k p := by
    refine ⟨h, hq, hπ, ?_, hp, ?_, fun i => ?_, hother⟩
    · unfold Sv39.link
      rw [hk]
      rfl
    · rw [hstored]
      exact link_pa2pte halign hlt
    · rw [hzero i]
      exact link_zero
  refine ⟨⟨hroot, ?_, fun ρ j hρ => ?_⟩, hL.new⟩
  · unfold Mem.Apart
    rw [hroot]
    exact hL.keeps
  · unfold Mem.entry
    rw [hroot]
    by_cases hpre : π ++ [k] <+: ρ
    · -- there was no table on this path; now there is none or an empty one
      obtain ⟨σ, rfl⟩ := hpre
      rw [hL.before σ]
      by_cases hσ : σ = []
      · rw [hσ, List.append_nil, hL.new]
        exact hzero j
      · rw [hL.below hσ]
        rfl
    · rw [hL.frame (by omega) hpre]
      cases ha : descend Sv39.link s.word s.root ρ with
      | none => rfl
      | some a =>
        refine hother a j (fun heq => hp ⟨ρ, by omega, heq ▸ ha⟩) (.inl fun heq => ?_)
        have hlen := h ρ π a (by omega) (by omega) ha (heq ▸ hq)
        rw [hlen] at hρ
        omega

/-- A store to an entry of a level-0 table. -/
theorem entry_set {ρ : List Nat} (h : s.Apart) (hρ : ρ.length = 2)
    (hp : descend link s.word s.root ρ = some p) (w : Nat) :
    (s.set p k w).Apart ∧ (∀ σ, σ.length ≤ 2 → descend link (s.set p k w).word s.root σ
        = descend link s.word s.root σ)
      ∧ (s.set p k w).entry ρ k = w
      ∧ ∀ σ j, σ.length = 2 → σ ≠ ρ ∨ j ≠ k → (s.set p k w).entry σ j = s.entry σ j := by
  have hother : ∀ a j, a ≠ p ∨ j ≠ k → (s.set p k w).word a j = s.word a j :=
    fun _ _ haj => set_of_ne s w haj
  have hdesc : ∀ σ : List Nat, σ.length ≤ 2 → descend link (s.set p k w).word s.root σ
        = descend link s.word s.root σ := by
    intro σ hσ
    refine descend_store h hp (by omega) hother (by omega) fun hpre => ?_
    have hlen := hpre.length_le
    rw [List.length_append, List.length_singleton] at hlen
    omega
  refine ⟨h.congr hdesc, hdesc, ?_, fun σ j hσ hne => ?_⟩
  · unfold Mem.entry
    rw [show (s.set p k w).root = s.root from rfl, hdesc ρ (by omega), hp]
    exact set_self s p k w
  · unfold Mem.entry
    rw [show (s.set p k w).root = s.root from rfl, hdesc σ (by omega)]
    cases ha : descend link s.word s.root σ with
    | none => rfl
    | some a =>
      refine hother a j ?_
      by_cases hap : a = p
      · refine .inr (hne.resolve_left fun hσρ => hσρ ?_)
        exact h σ ρ a (by omega) (by omega) ha (hap ▸ hp)
      · exact .inl hap

-- ======== walk

theorem kalloc_ok {r : Option Nat} (h : kalloc s = .ok (r, s', t)) :
    r = none ∧ s' = { s with calls := s.calls + 1 } ∨ ∃ p f, r = some p
        ∧ t = [(.alloc p, { s with calls := s.calls + 1 })]
        ∧ s' = ({ s with calls := s.calls + 1 } : Mem).setPage p f := by
  unfold kalloc at h
  rw [get_bind_run, modify_bind_run] at h
  cases henv : s.env s.calls with
  | none =>
    simp only [henv] at h
    cases h
    exact .inl ⟨rfl, rfl⟩
  | some p =>
    simp only [henv] at h
    cases h
    exact .inr ⟨p, _, rfl, rfl, rfl⟩

/-- Without allocation, `walk` follows the links and changes nothing. -/
theorem walkLevel_find (s : Mem) (va : Nat) (level pagetable : Nat) (hlevel : level ≤ 2) :
    walkLevel va false level pagetable s = .ok ((descend link s.word pagetable
          ((List.range level).reverse.map fun j => px (j + 1) va)).map (·, px 0 va), s, []) := by
  induction level generalizing pagetable with
  | zero => rfl
  | succ level ih =>
    unfold walkLevel
    rw [get_bind_run, List.range_succ, List.reverse_append,
      List.reverse_singleton, List.singleton_append, List.map_cons]
    conv_rhs => unfold descend
    unfold link
    cases hv : isV (s.word pagetable (px (level + 1) va)) with
    | true =>
      simp only [if_true, Option.bind_some]
      exact ih _ (by omega)
    | false => rfl

/-- The path that `walk` follows. -/
theorem path_eq (va : Nat) : (List.range 2).reverse.map (fun j => px (j + 1) va) = path va 0 := rfl

theorem walk_find (hva : va < maxva) : walk va false s
      = .ok ((descend link s.word s.root (path va 0)).map (·, px 0 va), s, []) := by
  unfold walk
  rw [get_bind_run, if_neg (by omega), walkLevel_find s va 2 _ (by omega), path_eq]

/-- With allocation, `walk` changes no entry, and it returns the place of
the entry it was asked for. -/
theorem walkLevel_alloc {pagetable : Nat} (hlevel : level ≤ 2) (h : s.Apart)
    (hat : descend link s.word s.root (path va level) = some pagetable)
    (hrun : walkLevel va true level pagetable s = .ok (r, s', t)) (hG : ∀ m ∈ t, Spare m.1 m.2) :
    Kept s s' ∧ ∀ p i, r = some (p, i) → i = px 0 va
      ∧ descend link s'.word s'.root (path va 0) = some p := by
  induction level generalizing s pagetable t with
  | zero =>
    cases hrun
    refine ⟨.of_word h rfl rfl, fun p i hr => ?_⟩
    cases hr
    exact ⟨rfl, hat⟩
  | succ level ih =>
    unfold walkLevel at hrun
    rw [get_bind_run] at hrun
    have hstep := path_step va (show level < 2 by omega)
    cases hv : isV (s.word pagetable (px (level + 1) va)) with
    | true =>
      simp only [hv, if_true] at hrun
      refine ih (by omega) h ?_ hrun hG
      rw [hstep, descend_snoc, hat]
      show link _ = _
      unfold link
      rw [if_pos hv]
    | false =>
      simp only [hv, Bool.not_true, Bool.false_eq_true, if_false] at hrun
      obtain ⟨r1, s1, t1, t2, hkalloc, hrest, rfl⟩ := bind_ok hrun
      rcases kalloc_ok hkalloc with ⟨rfl, rfl⟩ | ⟨p, f, rfl, rfl, rfl⟩
      · cases hrest
        exact ⟨.of_word h rfl rfl, nofun⟩
      · -- the page is spare, so it can be wiped and linked in
        obtain ⟨halign, hlt, hspare⟩ := hG _ (List.mem_append_left t2 (List.mem_singleton.mpr rfl))
        dsimp only at hrest
        rw [modify_bind_run] at hrest
        have hlen := path_length va hlevel
        have hkept0 : Kept s { s with calls := s.calls + 1 } := .of_word h rfl rfl
        have hkept1 := Kept.setPage hkept0.apart hspare f
        have hat1 : descend link (({ s with calls := s.calls + 1 } :
            Mem).setPage p f).word s.root (path va (level + 1))
            = some pagetable := by grind [descend_other, setPage_of_ne]
        have hspare1 : ¬ (({ s with calls := s.calls + 1 } : Mem).setPage p f).Table p := by
          intro htable
          obtain ⟨ρ, hρ, hdesc⟩ := htable
          refine hspare ⟨ρ, hρ, ?_⟩
          rw [← hdesc]
          exact (descend_other hspare (fun q hq => setPage_of_ne _ f hq) (by omega)).symm
        have hne : pagetable ≠ p := by
          intro heq
          exact hspare ⟨path va (level + 1), by omega, heq ▸ hat⟩
        have hv1 : isV ((({ s with calls := s.calls + 1 } :
            Mem).setPage p f).word pagetable (px (level + 1) va)) = false := by
          rw [setPage_of_ne _ _ hne]
          exact hv
        obtain ⟨hkept2, hat2⟩ := Kept.link hkept1.apart hat1 (by omega) hv1 hspare1 halign hlt
        rw [← hstep] at hat2
        obtain ⟨hkept3, hres⟩ := ih (by omega) hkept2.apart hat2 hrest
          fun m hm => hG m (List.mem_append_right _ hm)
        exact ⟨((hkept0.trans hkept1).trans hkept2).trans hkept3, hres⟩

theorem walk_alloc (h : s.Apart) (hrun : walk va true s = .ok (r, s', t))
    (hG : ∀ m ∈ t, Spare m.1 m.2) : va < maxva ∧ Kept s s' ∧ ∀ p i, r = some (p, i) → i = px 0 va
      ∧ descend link s'.word s'.root (path va 0) = some p := by
  unfold walk at hrun
  rw [get_bind_run] at hrun
  split at hrun
  · cases hrun
  · next hva =>
    refine ⟨by omega, walkLevel_alloc (Nat.le_refl 2) h ?_ hrun hG⟩
    rfl

-- ======== the simulation

/-- The word shows the entry of a map. -/
def Shows (w : Nat) : Option (Nat × Nat) → Prop
  | some (pa, flags) => isV w = true ∧ pte2pa w = pa ∧ pteFlags w = flags
  | none => w = 0

/-- The words of the tables show the map. -/
structure Sim (s : Mem) (m : PageMap) : Prop where
  apart : s.Apart
  shows : ∀ v, v < maxva / pgsize → Shows (s.pteOf (v * pgsize)) (m v)

section sim

variable {s s' : Mem} {m : PageMap} {va : Nat}

theorem Sim.kept (h : Sim s m) (hk : Kept s s') : Sim s' m := by
  refine ⟨hk.apart, fun v hv => ?_⟩
  have heq : s'.pteOf (v * pgsize) = s.pteOf (v * pgsize) :=
    hk.entry _ _ (path_length _ (Nat.zero_le 2))
  rw [heq]
  exact h.shows v hv

variable {e : Option (Nat × Nat)} {p w : Nat}

/-- Storing a PTE changes the entry of its page and no other. -/
theorem Sim.set (h : Sim s m) (hva : va < maxva) (halign : va % pgsize = 0)
    (hp : descend link s.word s.root (path va 0) = some p) (hw : Shows w e) :
    Sim (s.set p (px 0 va) w) (update m (va / pgsize) e) := by
  obtain ⟨hapart, -, hself, hother⟩ := entry_set (k := px 0 va) h.apart
    (path_length va (Nat.zero_le 2)) hp w
  have hback : va / pgsize * pgsize = va := Nat.div_mul_cancel (Nat.dvd_of_mod_eq_zero halign)
  refine ⟨hapart, fun v hv => ?_⟩
  by_cases hvv : v = va / pgsize
  · grind [update_apply, Mem.pteOf]
  · rw [update_of_ne hvv]
    have hne : path (v * pgsize) 0 ≠ path va 0 ∨ px 0 (v * pgsize) ≠ px 0 va := by
      by_contra hcon
      have hboth : path (v * pgsize) 0 = path va 0 ∧ px 0 (v * pgsize) = px 0 va := by grind
      have hlt : v * pgsize < maxva := by
        simp only [maxva, pgsize] at hv ⊢
        omega
      have hpage := page_of_path hlt hva hboth.1 hboth.2
      rw [Nat.mul_div_cancel v (by decide)] at hpage
      exact hvv hpage
    have heq : (s.set p (px 0 va) w).pteOf (v * pgsize) = s.pteOf (v * pgsize) :=
      hother _ _ (path_length _ (Nat.zero_le 2)) hne
    rw [heq]
    exact h.shows v hv

/-- A PTE that is not valid shows an unmapped page. -/
theorem Shows.eq_none (h : Shows w e) (hv : isV w = false) : e = none := by
  cases e with
  | none => rfl
  | some e =>
    have hv' := h.1
    rw [hv] at hv'
    cases hv'

theorem Sim.pteOf (h : Sim s m) (hva : va < maxva) (halign : va % pgsize = 0) :
    Shows (s.pteOf va) (m (va / pgsize)) := by
  have hshow := h.shows (va / pgsize) (by
    simp only [maxva, pgsize] at hva ⊢
    omega)
  rw [Nat.div_mul_cancel (Nat.dvd_of_mod_eq_zero halign)] at hshow
  exact hshow

/-- What the word at the place of an address shows. -/
theorem Sim.at (h : Sim s m) (hva : va < maxva) (halign : va % pgsize = 0)
    (hp : descend link s.word s.root (path va 0) = some p) :
    Shows (s.word p (px 0 va)) (m (va / pgsize)) := by
  have hshow := h.pteOf hva halign
  unfold Mem.pteOf Mem.entry at hshow
  rw [hp] at hshow
  exact hshow

/-- A page without a table is not mapped. -/
theorem Sim.at_none (h : Sim s m) (hva : va < maxva) (halign : va % pgsize = 0)
    (hp : descend link s.word s.root (path va 0) = none) : m (va / pgsize) = none := by
  have hshow := h.pteOf hva halign
  unfold Mem.pteOf Mem.entry at hshow
  rw [hp] at hshow
  change Shows 0 _ at hshow
  exact hshow.eq_none rfl

/-- The PTE that `mappages` stores. -/
theorem shows_mapped {pa perm : Nat} (hpa : pa < 2 ^ 64) (hperm : perm < 2 ^ 10) :
    Shows (pa2pte pa ||| perm ||| pteV) (some (pa / pgsize * pgsize, perm ||| pteV)) := by
  refine ⟨isV_or_pteV _, ?_, pteFlags_mapped pa hperm⟩
  rw [pte2pa_or _ (by decide), pte2pa_or _ hperm]
  unfold pte2pa pa2pte
  simp only [Nat.shiftLeft_eq, Nat.shiftRight_eq_div_pow, pgsize]
  omega

end sim

-- ======== the calls

theorem mapped_zero (m : PageMap) (v pa perm : Nat) : m.mapped v 0 pa perm = m := by
  funext u
  unfold PageMap.mapped
  rw [if_neg (by omega)]

/-- One page, and then the others. -/
theorem mapped_succ (m : PageMap) (v k pa perm : Nat) (hpa : pa < 2 ^ 64) :
    PageMap.mapped (update m v (some (pa / pgsize * pgsize, perm ||| pteV))) (v + 1) k
        ((pa + pgsize) % 2 ^ 64) perm
      = m.mapped v (k + 1) pa perm := by
  funext u
  unfold PageMap.mapped
  by_cases huv : u = v
  · rw [if_neg (by omega), if_pos (by omega), huv, update_self,
      Nat.sub_self, Nat.zero_mul, Nat.add_zero, Nat.mod_eq_of_lt hpa]
  · by_cases hin : v + 1 ≤ u ∧ u < v + 1 + k
    · grind
    · rw [if_neg hin, if_neg (by omega), update_of_ne huv]

theorem mappagesLoop_sim {pa perm : Nat} {r : Int} (h : Sim s m)
    (halign : a % pgsize = 0) (hpa : pa < 2 ^ 64) (hperm : perm < 2 ^ 10)
    (hrun : mappagesLoop perm n a pa s = .ok (r, s', t)) (hG : ∀ m ∈ t, Spare m.1 m.2) :
    ∃ k, (r = 0 ∧ k = n ∨ r = -1 ∧ k < n) ∧ (∀ u, a / pgsize ≤ u → u < a / pgsize + k → m u = none)
      ∧ Sim s' (m.mapped (a / pgsize) k pa perm) := by
  induction n generalizing s m a pa t with
  | zero =>
    cases hrun
    refine ⟨0, .inl ⟨rfl, rfl⟩, fun u _ _ => by omega, ?_⟩
    rw [mapped_zero]
    exact h
  | succ n ih =>
    unfold mappagesLoop at hrun
    obtain ⟨r1, s1, t1, t2, hwalk, hrest, rfl⟩ := bind_ok hrun
    obtain ⟨ha, hkept, hplace⟩ := walk_alloc h.apart hwalk
      fun x hx => hG x (List.mem_append_left t2 hx)
    have h1 := h.kept hkept
    cases r1 with
    | none =>
      cases hrest
      refine ⟨0, .inr ⟨rfl, by omega⟩, fun u _ _ => by omega, ?_⟩
      rw [mapped_zero]
      exact h1
    | some place =>
      obtain ⟨p, i⟩ := place
      obtain ⟨rfl, hp⟩ := hplace p i rfl
      dsimp only at hrest
      rw [get_bind_run] at hrest
      cases hv : isV (s1.word p (px 0 a)) with
      | true =>
        rw [if_pos hv] at hrest
        cases hrest
      | false =>
        rw [if_neg (by rw [hv]; decide), modify_bind_run] at hrest
        have hfree := (h1.at ha halign hp).eq_none hv
        have hset := h1.set ha halign hp (shows_mapped hpa hperm)
        have hnext : (a + pgsize) / pgsize = a / pgsize + 1 := Nat.add_div_right a (by decide)
        obtain ⟨k, hk, hnone, hsim⟩ := ih hset (by rw [Nat.add_mod_right]; exact halign)
          (Nat.mod_lt _ (by decide)) hrest fun x hx => hG x (List.mem_append_right t1 hx)
        rw [hnext, mapped_succ m _ k pa perm hpa] at hsim
        refine ⟨k + 1, ?_, fun u hu hu' => ?_, hsim⟩
        · omega
        · by_cases hua : u = a / pgsize
          · rw [hua]
            exact hfree
          · have hu1 := hnone u (by omega) (by omega)
            rw [update_of_ne hua] at hu1
            exact hu1

theorem cleared_zero (m : PageMap) (v : Nat) : m.cleared v 0 = m := by
  funext u
  unfold PageMap.cleared
  rw [if_neg (by omega)]

theorem cleared_succ (m : PageMap) (v k : Nat) :
    PageMap.cleared (update m v none) (v + 1) k = m.cleared v (k + 1) := by
  funext u
  unfold PageMap.cleared
  by_cases huv : u = v
  · rw [if_neg (by omega), if_pos (by omega), huv, update_self]
  · grind [update_apply]

theorem kfree_ok (h : kfree q s = .ok (u, s', t)) :
    t = [(.free q, s)] ∧ ∃ f n, s' = { s.setPage q f with calls := n } := by
  unfold kfree at h
  rw [get_bind_run] at h
  split at h
  · cases h
  · cases h
    exact ⟨rfl, _, _, rfl⟩

/-- A page is given back that is not one of the table. -/
theorem Sim.kfree (h : Sim s m) (hrun : kfree q s = .ok (u, s', t)) (hG : ∀ m ∈ t, Spare m.1 m.2) :
    Sim s' m ∧ ∀ ρ : List Nat, ρ.length ≤ 2 →
      descend link s'.word s'.root ρ = descend link s.word s.root ρ := by
  obtain ⟨rfl, f, n, rfl⟩ := kfree_ok hrun
  have hspare : ¬ s.Table q := hG _ (List.mem_singleton.mpr rfl)
  have hkept := Kept.setPage h.apart hspare f
  refine ⟨(h.kept hkept).kept (.of_word hkept.apart rfl rfl), fun ρ hρ => ?_⟩
  exact descend_other hspare (fun a ha => setPage_of_ne s f ha) (by omega)

theorem uvmunmapPage_sim (h : Sim s m) (halign : a % pgsize = 0)
    (hrun : uvmunmapPage a doFree s = .ok (u, s', t)) (hG : ∀ m ∈ t, Spare m.1 m.2) :
    Sim s' (update m (a / pgsize) none) := by
  unfold uvmunmapPage at hrun
  obtain ⟨r, s1, t1, t2, hwalk, hrest, rfl⟩ := bind_ok hrun
  by_cases ha : a < maxva
  · rw [walk_find ha] at hwalk
    cases hp : descend link s.word s.root (path a 0) with
    | none =>
      rw [hp] at hwalk
      cases hwalk
      cases hrest
      rw [update_eq_self_iff.mpr (h.at_none ha halign hp).symm]
      exact h
    | some p =>
      rw [hp, Option.map_some] at hwalk
      cases hwalk
      dsimp only at hrest
      rw [get_bind_run] at hrest
      cases hv : isV (s.word p (px 0 a)) with
      | false =>
        rw [if_neg (by rw [hv]; decide)] at hrest
        cases hrest
        rw [update_eq_self_iff.mpr ((h.at ha halign hp).eq_none hv).symm]
        exact h
      | true =>
        rw [if_pos hv] at hrest
        cases doFree with
        | false =>
          simp only [Bool.false_eq_true, if_false] at hrest
          cases hrest
          exact h.set ha halign hp rfl
        | true =>
          simp only [if_true] at hrest
          obtain ⟨⟨⟩, s2, t3, t4, hfree, hset, rfl⟩ := bind_ok hrest
          obtain ⟨h2, hdesc⟩ := h.kfree hfree fun x hx => hG x
            (List.mem_append_right _ (List.mem_append_left t4 hx))
          cases hset
          refine h2.set ha halign ?_ rfl
          rw [hdesc _ (by rw [path_length a (Nat.zero_le 2)])]
          exact hp
  · unfold walk at hwalk
    rw [get_bind_run, if_pos (by omega)] at hwalk
    cases hwalk

theorem uvmunmapLoop_sim (h : Sim s m) (halign : a % pgsize = 0)
    (hrun : uvmunmapLoop doFree n a s = .ok (u, s', t))
    (hG : ∀ m ∈ t, Spare m.1 m.2) : Sim s' (m.cleared (a / pgsize) n) := by
  induction n generalizing s m a t with
  | zero =>
    cases hrun
    rw [cleared_zero]
    exact h
  | succ n ih =>
    unfold uvmunmapLoop at hrun
    obtain ⟨⟨⟩, s1, t1, t2, hpage, hrest, rfl⟩ := bind_ok hrun
    have h1 := uvmunmapPage_sim h halign hpage fun x hx => hG x (List.mem_append_left t2 hx)
    have h2 := ih h1 (by rw [Nat.add_mod_right]; exact halign) hrest
      fun x hx => hG x (List.mem_append_right t1 hx)
    rw [Nat.add_div_right a (by decide), cleared_succ] at h2
    exact h2

-- ======== uvmunmap returns

theorem kfree_runs (halign : q % pgsize = 0) (hlo : s.kend ≤ q) (hhi : q < phystop) :
    ∃ s', kfree q s = .ok ((), s', [(.free q, s)]) ∧ s'.kend = s.kend := by
  refine ⟨{ s.setPage q (s.junk s.calls) with calls := s.calls + 1 }, ?_, rfl⟩
  unfold kfree
  rw [get_bind_run, if_neg (by omega)]
  rfl

theorem pte2pa_aligned (w : Nat) : pte2pa w % pgsize = 0 := by
  unfold pte2pa
  simp only [Nat.shiftLeft_eq, Nat.shiftRight_eq_div_pow, pgsize]
  omega

/-- What a round of `uvmunmap` leaves as it is for the next ones. -/
structure Spared (s s' : Mem) (t : Notes Use Mem) : Prop where
  spare : ∀ x ∈ t, Spare x.1 x.2
  kend : s'.kend = s.kend
  tables : ∀ q, s'.Table q → s.Table q

/-- Clearing a PTE leaves the tables. -/
theorem Spared.set (h : s.Apart) (hp : descend link s.word s.root (path a 0) = some p) (w : Nat) :
    Spared s (s.set p (px 0 a) w) [] := by
  obtain ⟨-, hdesc, -⟩ := entry_set (k := px 0 a) h (path_length a (Nat.zero_le 2)) hp w
  refine ⟨nofun, rfl, fun q htable => ?_⟩
  obtain ⟨π, hπ, hq⟩ := htable
  exact ⟨π, hπ, (hdesc π hπ).symm.trans hq⟩

theorem uvmunmapPage_returns (h : Sim s m) (ha : a < maxva) (halign : a % pgsize = 0)
    (hfree : doFree = true → s.Returnable m (a / pgsize) 1) :
    ∃ s' t, uvmunmapPage a doFree s = .ok ((), s', t) ∧ Spared s s' t := by
  unfold uvmunmapPage
  rw [bind_run_quiet (walk_find ha)]
  cases hp : descend link s.word s.root (path a 0) with
  | none => exact ⟨s, [], rfl, nofun, rfl, fun _ => id⟩
  | some p =>
    rw [Option.map_some]
    dsimp only
    rw [get_bind_run]
    cases hv : isV (s.word p (px 0 a)) with
    | false => exact ⟨s, [], rfl, nofun, rfl, fun _ => id⟩
    | true =>
      cases doFree with
      | false => exact ⟨_, [], rfl, .set h.apart hp 0⟩
      | true =>
        -- the page the PTE shows is the one the map has there
        have hshow := h.at ha halign hp
        obtain ⟨⟨pa, flags⟩, he⟩ : ∃ e, m (a / pgsize) = some e := by
          cases he : m (a / pgsize) with
          | none =>
            rw [he] at hshow
            rw [show s.word p (px 0 a) = 0 from hshow] at hv
            cases hv
          | some e => exact ⟨e, rfl⟩
        rw [he] at hshow
        obtain ⟨hlo, hhi, hspare⟩ := hfree rfl _ pa flags le_rfl (Nat.lt_succ_self _) he
        rw [← hshow.2.1] at hlo hhi hspare
        obtain ⟨s1, hrun, hkend⟩ := kfree_runs (pte2pa_aligned _) hlo hhi
        have hnote : ∀ x ∈ [(Use.free (pte2pa (s.word p (px 0 a))), s)], Spare x.1 x.2 := by
          intro x hx
          rw [List.mem_singleton.mp hx]
          exact hspare
        obtain ⟨h1, hdesc⟩ := h.kfree hrun hnote
        have hp1 : descend link s1.word s1.root (path a 0) = some p := by
          rw [hdesc _ (path_length a (Nat.zero_le 2)).le]
          exact hp
        have hset := Spared.set h1.apart hp1 0
        refine ⟨s1.set p (px 0 a) 0, [(.free (pte2pa (s.word p (px 0 a))), s)], ?_, hnote,
          hset.kend.trans hkend, fun q hq => ?_⟩
        · simp only [if_true]
          rw [bind_run_ok hrun]
          rfl
        · obtain ⟨π, hπ, hq⟩ := hset.tables q hq
          exact ⟨π, hπ, (hdesc π hπ).symm.trans hq⟩

theorem uvmunmapLoop_returns (h : Sim s m) (halign : a % pgsize = 0)
    (hend : a + n * pgsize ≤ maxva) (hfree : doFree = true → s.Returnable m (a / pgsize) n) :
    ∃ s' t, uvmunmapLoop doFree n a s = .ok ((), s', t) ∧ ∀ x ∈ t, Spare x.1 x.2 := by
  induction n generalizing s m a with
  | zero => exact ⟨s, [], rfl, nofun⟩
  | succ n ih =>
    have hroom : a < maxva ∧ a + pgsize + n * pgsize ≤ maxva := by
      simp only [maxva, pgsize] at hend ⊢
      omega
    have hone : doFree = true → s.Returnable m (a / pgsize) 1 :=
      fun hd u pa flags hu hu1 => hfree hd u pa flags hu (by omega)
    obtain ⟨s1, t1, hpage, hspared⟩ := uvmunmapPage_returns h hroom.1 halign hone
    have h1 := uvmunmapPage_sim h halign hpage hspared.spare
    obtain ⟨s2, t2, hloop, hspare⟩ := ih h1 (by rw [Nat.add_mod_right]; exact halign) hroom.2 (by
      intro hd u pa flags hu hun he
      rw [Nat.add_div_right a (by decide)] at hu hun
      rw [update_of_ne (by omega)] at he
      obtain ⟨hlo, hhi, htable⟩ := hfree hd u pa flags (by omega) (by omega) he
      rw [hspared.kend]
      exact ⟨hlo, hhi, fun hq => htable (hspared.tables _ hq)⟩)
    refine ⟨s2, t1 ++ t2, ?_, fun x hx => ?_⟩
    · unfold uvmunmapLoop
      rw [bind_run_ok hpage, hloop]
    · exact (List.mem_append.mp hx).elim (hspared.spare x) (hspare x)

/-- `uvmunmap` of a range below `MAXVA` returns, and uses no page of the
table. -/
theorem uvmunmap_returns (h : Sim s m) (halign : va % pgsize = 0)
    (hend : va + n * pgsize ≤ maxva) (hfree : doFree = true → s.Returnable m (va / pgsize) n) :
    ∃ s' t, (Op.uvmunmap va n doFree).prog s = .ok (0, s', t) ∧ ∀ x ∈ t, Spare x.1 x.2 := by
  have hcount : unmapCount va n = n := by
    unfold unmapCount
    simp only [maxva, pgsize] at *
    omega
  obtain ⟨s', t, hrun, hspare⟩ := uvmunmapLoop_returns h halign hend hfree
  refine ⟨s', t ++ [], ?_, fun x hx => hspare x (List.append_nil t ▸ hx)⟩
  change (Sv39.uvmunmap va n doFree >>= fun _ => pure 0) s = _
  have hunmap : Sv39.uvmunmap va n doFree s = .ok ((), s', t) := by
    unfold Sv39.uvmunmap
    rw [if_neg (by rw [halign]; decide), hcount]
    exact hrun
  rw [bind_run_ok hunmap]
  rfl

-- ======== the runs

/-- Every call does to the words what it does to the map. -/
theorem Op.sim {o : Op} {r : Int} (h : Sim s m) (hfits : o.Fits)
    (hrun : o.prog s = .ok (r, s', t)) (hG : ∀ m ∈ t, Spare m.1 m.2) :
    ∃ m', o.Abs r m m' ∧ Sim s' m' := by
  cases o with
  | mappages va size pa perm =>
    obtain ⟨halign, -, -, hpa, hperm⟩ := hfits
    change Sv39.mappages va size pa perm s = _ at hrun
    unfold Sv39.mappages at hrun
    rw [if_neg (by rw [halign]; decide)] at hrun
    split at hrun
    · cases hrun
    · split at hrun
      · cases hrun
      · obtain ⟨k, hk, hnone, hsim⟩ := mappagesLoop_sim h halign hpa hperm hrun hG
        exact ⟨_, ⟨k, hk, hnone, rfl⟩, hsim⟩
  | uvmunmap va npages doFree =>
    obtain ⟨halign, -, -⟩ := hfits
    change (Sv39.uvmunmap va npages doFree >>= fun _ => pure 0) s = _ at hrun
    obtain ⟨⟨⟩, s1, t1, t2, hunmap, hret, rfl⟩ := bind_ok hrun
    cases hret
    unfold Sv39.uvmunmap at hunmap
    rw [if_neg (by rw [halign]; decide)] at hunmap
    exact ⟨_, rfl, uvmunmapLoop_sim h halign hunmap fun x hx => hG x (List.mem_append_left _ hx)⟩
  | store p f =>
    cases hrun
    have hspare : ¬ s.Table p := hG _ (List.mem_singleton.mpr rfl)
    exact ⟨m, rfl, h.kept (.setPage h.apart hspare f)⟩

/-- A zeroed root shows the empty map. -/
theorem sim_init (h : ∀ i, s.word s.root i = 0) : Sim s fun _ => none := by
  have hnone : ∀ ρ : List Nat, ρ ≠ [] → descend link s.word s.root ρ = none := by
    intro ρ hρ
    refine descend_empty (fun i => ?_) hρ
    rw [h i]
    rfl
  have hnil : ∀ (ρ : List Nat) p, descend link s.word s.root ρ = some p → ρ = [] := by grind
  refine ⟨fun π ρ p _ _ hπ hρ => ?_, fun v _ => ?_⟩
  · rw [hnil π p hπ, hnil ρ p hρ]
  · show s.entry _ _ = 0
    unfold Mem.entry
    rw [hnone _ (by unfold path; exact List.cons_ne_nil _ _)]
    rfl

theorem Runs.sim {h : List (Op × Int)} (hr : Runs h s) : ∃ m, AbsRuns h m ∧ Sim s m := by
  induction hr with
  | init h => exact ⟨_, .init, sim_init h⟩
  | step o _ hfits hrun hG ih =>
    obtain ⟨m, habs, hsim⟩ := ih
    obtain ⟨m', hstep, hsim'⟩ := Op.sim hsim hfits hrun hG
    exact ⟨m', habs.step o hstep, hsim'⟩

theorem Sim.refines (h : Sim s m) : Refines s m := by
  intro v hv
  have hlt : v * pgsize < maxva := by
    simp only [maxva, pgsize] at hv ⊢
    omega
  have hfound : s.found (v * pgsize) = (descend link s.word s.root (path (v * pgsize) 0)).map
        fun p => s.word p (px 0 (v * pgsize)) := by
    unfold Mem.found
    rw [walk_find hlt]
    cases descend link s.word s.root (path (v * pgsize) 0) <;> rfl
  have hshow := h.shows v hv
  unfold Mem.pteOf Mem.entry at hshow
  rw [hfound]
  cases hd : descend link s.word s.root (path (v * pgsize) 0) with
  | none =>
    rw [hd] at hshow
    change Shows 0 _ at hshow
    rw [hshow.eq_none rfl]
    exact .inl rfl
  | some p =>
    rw [hd] at hshow
    change Shows (s.word p (px 0 (v * pgsize))) _ at hshow
    cases hm : m v with
    | none =>
      rw [hm] at hshow
      exact .inr (congrArg some hshow)
    | some e =>
      rw [hm] at hshow
      exact ⟨_, rfl, hshow⟩

/-- A page that no word links to is no table. -/
theorem not_table (hroot : p ≠ s.root) (h : ∀ q i, link (s.word q i) ≠ some p) : ¬ s.Table p := by
  intro htable
  obtain ⟨π, -, hπ⟩ := htable
  induction π using List.reverseRecOn with
  | nil => exact hroot (Option.some.inj hπ).symm
  | append_singleton π i _ => grind [descend_snoc, Option.bind_eq_some_iff]

/-- Blank memory, and two pages for tables. A page that is given back is
filled with ones. -/
def blank : Mem :=
  { root := 0x80001000, word := fun _ _ => 0
    env := fun n => [some 0x80002000, some 0x80003000].getD n none
    junk := fun _ _ => 0x0101010101010101, calls := 0, kend := 0x80000000 }

/-- `blank` with the first of the two linked in, when the second is handed
out. -/
def linked : Mem :=
  { ((blank.setPage 0x80002000 (blank.junk 1)).setPage 0x80002000 fun _ => 0).set blank.root
      (px 2 0x1000) (pa2pte 0x80002000 ||| pteV) with calls := 2 }

/-- Neither page is in use when it is handed out. -/
theorem blank_spare : Spare (.alloc 0x80002000) { blank with calls := 1 }
      ∧ Spare (.alloc 0x80003000) linked := by
  refine ⟨⟨rfl, by decide, not_table (by decide) fun q i => ?_⟩,
    rfl, by decide, not_table (by decide) fun q i => ?_⟩
  · show link 0 ≠ _
    decide
  · -- the one link there is leads to the other page
    unfold linked
    dsimp only
    by_cases hq : q ≠ blank.root ∨ i ≠ px 2 0x1000
    · rw [set_of_ne _ _ hq]
      by_cases hp : q = 0x80002000
      · rw [hp, setPage_self]
        decide
      · rw [setPage_of_ne _ _ hp, setPage_of_ne _ _ hp]
        show link 0 ≠ _
        decide
    · obtain ⟨rfl, rfl⟩ : q = blank.root ∧ i = px 2 0x1000 := by
        constructor <;> omega
      rw [set_self]
      decide

theorem AbsRuns.nil (ha : AbsRuns [] m) : m = fun _ => none := by
  generalize hl : [] = l at ha
  cases ha with
  | init => rfl
  | step => exact absurd hl.symm (List.append_ne_nil_of_right_ne_nil _ (List.cons_ne_nil _ _))

theorem AbsRuns.snoc {h : List (Op × Int)} {o : Op} {r : Int} (ha : AbsRuns (h ++ [(o, r)]) m) :
    ∃ m0, AbsRuns h m0 ∧ o.Abs r m0 m := by
  generalize hl : h ++ [(o, r)] = l at ha
  cases ha with
  | init => exact absurd hl (List.append_ne_nil_of_right_ne_nil _ (List.cons_ne_nil _ _))
  | step o' ha' hstep =>
    obtain ⟨rfl, hlast⟩ := List.append_inj' hl rfl
    cases hlast
    exact ⟨_, ha', hstep⟩

/-- The map after some pages from `0x1000` on are mapped and the first one
is unmapped. -/
theorem AbsRuns.two {size pa : Nat} {doFree : Bool}
    (ha : AbsRuns [(.mappages 0x1000 size pa 6, 0), (.uvmunmap 0x1000 1 doFree, 0)] m) :
    m = (PageMap.mapped (fun _ => none) 1 (size / pgsize) pa 6).cleared 1 1 := by
  obtain ⟨m1, ha1, hunmap⟩ := AbsRuns.snoc (h := [(.mappages 0x1000 size pa 6, 0)]) ha
  obtain ⟨m0, ha0, k, hk, -, hmap⟩ := AbsRuns.snoc (h := []) ha1
  obtain ⟨-, rfl⟩ : (0 : Int) = 0 ∧ k = size / pgsize := hk.resolve_right (by simp)
  rw [show m = m1.cleared 1 1 from hunmap, show m1 = _ from hmap, ha0.nil]
  rfl

end GemOS.Sv39
