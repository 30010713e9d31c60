/-
What `sbrk` does, for every argument and both policies.

The size is a 64-bit word and the argument an `int`: a sum that would be
negative wraps to a size above the old one, and `uvmdealloc` then leaves
everything alone. `Resized` is the outcome as the caller sees it.
-/
import GemOS.Proofs.TableLife

namespace GemOS

open Prog

variable {E : Fault → Prop} {k : Nat} {F : Nat → Prop}

-- ======== arithmetic

variable {a b sz root : Nat} {n : Int} {l l' : Nat → Nat} {me : ProcId} {s : Kernel}

/-- A sum that is not negative. -/
theorem addInt_of_nonneg (h : 0 ≤ (a : Int) + n) (ha : a ≤ trapframeVa)
    (hn : n < 2 ^ 31) : (addInt a n : Int) = a + n := by
  unfold addInt
  simp only [trapframeVa, trampolineVa, maxva, pgsize] at ha
  omega

/-- A negative sum wraps around. -/
theorem le_addInt_of_neg (h : (a : Int) + n < 0) (hn : -2 ^ 31 ≤ n)
    (ha : a ≤ trapframeVa) : a ≤ addInt a n := by
  unfold addInt
  simp only [trapframeVa, trampolineVa, maxva, pgsize] at ha
  omega

theorem pagesOf_mono (h : a ≤ b) : pagesOf a ≤ pagesOf b := Nat.div_le_div_right (by omega)

theorem pgroundup_vpn (h : sz ≤ trapframeVa) : pgroundup sz >>> 12 = pagesOf sz := by
  rw [pgroundup_pagesOf h]
  exact vpn_mul _

-- ======== bounded

theorem Bounded.mono (h : Bounded a l) (hle : a ≤ b) : Bounded b l := fun v hV =>
  (h v hV).imp_left fun hv => hv.trans_le (pagesOf_mono hle)

/-- Nothing is mapped above the size. -/
theorem Bounded.noneFrom (h : Bounded sz l) : NoneFrom (pagesOf sz) l := by
  intro v hlo hv
  by_contra hV
  have := h v (by simpa using hV)
  omega

/-- The same valid leaves. -/
def SameMappings (l l' : Nat → Nat) : Prop :=
  ∀ v, isV (l' v) = isV (l v) ∧ (isV (l v) = true → l' v = l v)

theorem SameMappings.refl (l : Nat → Nat) : SameMappings l l := fun _ => ⟨rfl, fun _ => rfl⟩

theorem SameMappings.bounded (h : SameMappings l l') (hb : Bounded sz l) : Bounded sz l' := by
  intro v hV
  rw [(h v).1] at hV
  exact hb v hV

/-- Cutting where nothing is mapped changes no mapping. -/
theorem CutAt.same {lo : Nat} (h : CutAt lo l l') (hnone : NoneFrom lo l) : SameMappings l l' := by
  intro v
  by_cases hv : lo ≤ v ∧ v < userPages
  · have h0 := hnone v hv.1 hv.2
    rw [h.1 v hv.1 hv.2, h0]
    exact ⟨rfl, nofun⟩
  · rw [h.2 v (by omega)]
    exact ⟨rfl, fun _ => rfl⟩

-- ======== sbrk

/-- Process `me`, with its table at `root`, got the size `sz`; nothing
but its size and the leaves of its table changed, and the table is still
bounded. -/
structure Sized (me : ProcId) (root sz : Nat) (s s' : Kernel) : Prop where
  procs : ∀ q, q ≠ me → s'.proc q = s.proc q
  proc : s'.proc me = { s.proc me with sz := sz }
  others : ∀ r, r ≠ root → s'.pagetables r = s.pagetables r
  bounded : Bounded sz (s'.pagetables root).leaf

/-- The outcome of a resize by `n`: the sum, if it is a size; the old
size and the old mappings, if the sum is negative or the call fails. -/
inductive Resized (me : ProcId) (root : Nat) (n : Int) (s : Kernel) : Bool → Kernel → Prop
  | moved {sz : Nat} {s' : Kernel} : (sz : Int) = (s.proc me).sz + n →
      sz ≤ trapframeVa → Sized me root sz s s' →
      Resized me root n s true s'
  | wrapped {s' : Kernel} : ((s.proc me).sz : Int) + n < 0 →
      Sized me root (s.proc me).sz s s' →
      SameMappings (s.pagetables root).leaf (s'.pagetables root).leaf →
      Resized me root n s true s'
  | failed {s' : Kernel} : Sized me root (s.proc me).sz s s' →
      SameMappings (s.pagetables root).leaf (s'.pagetables root).leaf →
      Resized me root n s false s'

theorem Sized.refl (hb : Bounded (s.proc me).sz (s.pagetables root).leaf) :
    Sized me root (s.proc me).sz s s :=
  ⟨fun _ _ => rfl, rfl, fun _ _ => rfl, hb⟩

/-- The table is worked on, then the size is set. -/
theorem Sized.set {s1 : Kernel} (hbeside : s1.beside = s.beside)
    (hothers : ∀ r, r ≠ root → s1.pagetables r = s.pagetables r)
    (hb : Bounded sz (s1.pagetables root).leaf) :
    Sized me root sz s (s1.updProc me fun q => { q with sz := sz }) := by
  have hproc := proc_of_beside hbeside
  refine ⟨fun q hq => ?_, ?_, hothers, hb⟩
  · rw [s1.updProc_of_ne _ hq, hproc]
  · rw [s1.updProc_self, hproc]

section sbrk

variable {me : ProcId} {root : Nat} {s : Kernel}

variable {n : Int}

theorem wp_growproc (hF : Takes E k F) (hlo : -2 ^ 31 ≤ n) (hhi : n < 2 ^ 31)
    (hs : Stock k F s) (hpt : (s.proc me).pagetable = some root)
    (ht : (s.pagetables root).Good F root) (hsz : (s.proc me).sz ≤ trapframeVa)
    (hb : Bounded (s.proc me).sz (s.pagetables root).leaf) :
    wp E (growproc me n) (fun r s' => (r = 0 ∧ Resized me root n s true s')
      ∨ (r = -1 ∧ Resized me root n s false s')) s := by
  have hfail : Resized me root n s false s := .failed (.refl hb) (.refl _)
  refine .get_bind (.ite (fun hpos => .ite (fun _ => .pure (.inr ⟨rfl, hfail⟩))
    fun htop => ?_) fun hnpos => .ite (fun hneg => ?_) fun hnn => ?_)
  · -- growing
    have hnew := addInt_of_nonneg (a := (s.proc me).sz) (n := n) (by omega) hsz hhi
    refine wp_pagetableOf hpt ?_
    have hle : addInt (s.proc me).sz n ≤ trapframeVa := Nat.not_lt.mp htop
    refine .bind (wp_uvmalloc hF (by decide) hsz (by omega) (.inl hle) hs ht
      hb.noneFrom) fun r s1 h => ?_
    cases h with
    | all hext w hfill _ _ =>
      rw [pgroundup_vpn hsz] at hfill
      refine .ite (fun h0 => by omega) fun _ => ?_
      refine .modify_bind (.pure (.inl ⟨rfl, .moved hnew hle
        (.set w.beside w.others fun v hV => ?_)⟩))
      by_cases hv : pagesOf (s.proc me).sz ≤ v ∧ v < pagesOf (addInt (s.proc me).sz n)
      · exact .inl hv.2
      · rw [(hfill v).2 (by omega)] at hV
        exact hb.mono (by omega) v hV
    | none w hcut =>
      rw [pgroundup_vpn hsz] at hcut
      have hsame := hcut.same hb.noneFrom
      refine .ite (fun _ => .pure (.inr ⟨rfl, .failed ⟨fun q _ => ?_, ?_,
        w.others, hsame.bounded hb⟩ hsame⟩)) fun h => absurd rfl h
      · rw [proc_of_beside w.beside]
      · rw [proc_of_beside w.beside]
  · -- shrinking
    refine wp_pagetableOf hpt ?_
    suffices hrest : wp E (do
          let sz' ← uvmdealloc root (s.proc me).sz (addInt (s.proc me).sz n)
          modify fun s => s.updProc me fun q => { q with sz := sz' }
          return 0 : K Int)
        (fun r s' => (r = 0 ∧ Resized me root n s true s')
          ∨ (r = -1 ∧ Resized me root n s false s')) s from
      .ite (fun _ => .note_bind hrest) fun _ => hrest
    by_cases hsum : (s.proc me).sz + n < 0
    · have hwrap := le_addInt_of_neg hsum hlo hsz
      refine .bind (.ite (fun _ => .pure ⟨rfl, rfl⟩) fun h => absurd hwrap h)
        fun r s1 (h : r = (s.proc me).sz ∧ s1 = s) => ?_
      obtain ⟨rfl, rfl⟩ := h
      exact .modify_bind (.pure (.inl ⟨rfl, .wrapped hsum
        (.set rfl (fun _ _ => rfl) hb) (.refl _)⟩))
    · have hnew := addInt_of_nonneg (a := (s.proc me).sz) (n := n) (by omega) hsz hhi
      have hle : addInt (s.proc me).sz n ≤ (s.proc me).sz := by omega
      refine .bind (wp_uvmdealloc hF hsz hle hs.kend ht) fun r s1 h => ?_
      obtain ⟨rfl, h⟩ := h
      refine .modify_bind (.pure (.inl ⟨rfl, .moved hnew (hle.trans hsz)
        (.set h.beside h.others fun v hV => ?_)⟩))
      have hcount : pagesOf (addInt (s.proc me).sz n)
          + (pgroundup (s.proc me).sz - pgroundup (addInt (s.proc me).sz n))
            / pgsize = pagesOf (s.proc me).sz := by
        have := pagesOf_mono hle
        rw [pgroundup_pagesOf hsz, pgroundup_pagesOf (hle.trans hsz),
          ← Nat.sub_mul, Nat.mul_div_cancel _ (by decide)]
        omega
      rw [h.leaf, pgroundup_vpn (hle.trans hsz)] at hV
      obtain ⟨-, hV', hout⟩ := cleared_valid hV
      rw [hcount] at hout
      have := hb v hV'
      omega
  · obtain rfl : n = 0 := by omega
    exact .pure (.inl ⟨rfl, .moved (by omega) hsz (.refl hb)⟩)

/-- `sbrk` returns the old size, or -1 for a failure. -/
theorem wp_sysSbrk (hF : Takes E k F) {eager : Bool} (hlo : -2 ^ 31 ≤ n)
    (hhi : n < 2 ^ 31) (hs : Stock k F s) (hpt : (s.proc me).pagetable = some root)
    (ht : (s.pagetables root).Good F root) (hsz : (s.proc me).sz ≤ trapframeVa)
    (hb : Bounded (s.proc me).sz (s.pagetables root).leaf) : wp E (sysSbrk me n eager) (fun r s' =>
      (r = (s.proc me).sz ∧ Resized me root n s true s')
      ∨ (r = -1 ∧ Resized me root n s false s')) s := by
  have hfail : Resized me root n s false s := .failed (.refl hb) (.refl _)
  refine .get_bind (.ite (fun _ => ?_) fun hlazy => ?_)
  · refine .bind (wp_growproc hF hlo hhi hs hpt ht hsz hb) fun r s1 h => ?_
    rcases h with ⟨rfl, h⟩ | ⟨rfl, h⟩
    · exact .ite (fun h => absurd h (by decide)) fun _ => .pure (.inl ⟨rfl, h⟩)
    · exact .ite (fun _ => .pure (.inr ⟨rfl, h⟩)) fun h => absurd (by decide) h
  · have hnn : 0 ≤ n := by
      by_contra h
      exact hlazy (.inr (by omega))
    have hnew := addInt_of_nonneg (a := (s.proc me).sz) (n := n) (by omega) hsz hhi
    refine .ite (fun _ => .pure (.inr ⟨rfl, hfail⟩)) fun _ =>
      .ite (fun _ => .pure (.inr ⟨rfl, hfail⟩)) fun htop => ?_
    exact .modify_bind (.pure (.inl ⟨rfl, .moved hnew (Nat.not_lt.mp htop)
      (.set rfl (fun _ _ => rfl) (hb.mono (by omega)))⟩))

end sbrk

end GemOS
