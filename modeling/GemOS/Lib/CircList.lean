/-
Circular doubly linked lists through a sentinel.

A node pointer is an `Option α`, and `none` is the sentinel. `CircList
next prev l` says that the links lead from the sentinel through the nodes `l`
and back to it, and the same way backwards. It is made of `Seg`ments,
which read the links of their own nodes only (`Seg.congr`).

Lists of this kind are edited by taking a node out (`CircList.unlink`) and by
putting one in front (`CircList.push`), and read by a loop that follows the
links until it is back at the sentinel (`scan`).
-/
import Mathlib.Logic.Function.Basic
import Mathlib.Data.List.Basic
import Mathlib.Data.List.Nodup
import Mathlib.Data.List.Induction

variable {α : Type} {next prev next' prev' : Option α → Option α}

-- ======== segments

/-- From `x` the links lead through `l` to `y`, and back. -/
def Seg (next prev : Option α → Option α) : Option α → List α → Option α → Prop
  | x, [], y => next x = y ∧ prev y = x
  | x, a :: l, y => next x = some a ∧ prev (some a) = x ∧ Seg next prev (some a) l y

namespace Seg

variable {x y z : Option α} {l : List α}

/-- A segment reads the links of its own nodes only. -/
theorem congr (h : Seg next prev x l y) (hn : ∀ w, w = x ∨ w ∈ l.map some → next' w = next w)
    (hp : ∀ w, w ∈ l.map some ∨ w = y → prev' w = prev w) : Seg next' prev' x l y := by
  induction l generalizing x with
  | nil =>
    refine ⟨(hn x (.inl rfl)).trans h.1, ?_⟩
    rw [hp y (.inr rfl)]
    exact h.2
  | cons a l ih =>
    refine ⟨(hn x (.inl rfl)).trans h.1, ?_, ih h.2.2 ?_ ?_⟩
    · rw [hp (some a) (.inl (by simp))]
      exact h.2.1
    · intro w hw
      refine hn w (.inr ?_)
      rw [List.map_cons, List.mem_cons]
      exact hw
    · intro w hw
      refine hp w (hw.imp_left fun hw => ?_)
      rw [List.map_cons]
      exact List.mem_cons_of_mem _ hw

/-- Splitting a segment at a node. -/
theorem split {pre post : List α} {b : α} : Seg next prev x (pre ++ b :: post) y ↔
      Seg next prev x pre (some b) ∧ Seg next prev (some b) post y := by
  induction pre generalizing x with
  | nil => exact ⟨fun h => ⟨⟨h.1, h.2.1⟩, h.2.2⟩, fun h => ⟨h.1.1, h.1.2, h.2⟩⟩
  | cons a pre ih =>
    refine ⟨fun h => ?_, fun h => ⟨h.1.1, h.1.2.1, ih.mpr ⟨h.1.2.2, h.2⟩⟩⟩
    obtain ⟨h1, h2⟩ := ih.mp h.2.2
    exact ⟨⟨h.1, h.2.1, h1⟩, h2⟩

/-- The node before the end. -/
theorem prev_mem (h : Seg next prev x l y) : prev y ∈ x :: l.map some := by
  induction l generalizing x with
  | nil =>
    rw [h.2]
    exact List.mem_cons_self ..
  | cons a l ih => exact List.mem_cons_of_mem _ (ih h.2.2)

/-- The node after the start. -/
theorem next_mem (h : Seg next prev x l y) : next x ∈ l.map some ++ [y] := by
  cases l with
  | nil =>
    rw [h.1]
    simp
  | cons a l =>
    rw [h.1]
    simp

variable [DecidableEq α]

/-- Letting the last node of a segment point elsewhere. -/
theorem redirect (h : Seg next prev x l y) (hnd : (x :: l.map some).Nodup) (hz : z ∉ l.map some) :
    Seg (Function.update next (prev y) z) (Function.update prev z (prev y)) x l z := by
  induction l generalizing x with
  | nil =>
    refine ⟨?_, ?_⟩
    · rw [h.2, Function.update_self]
    · rw [Function.update_self, h.2]
  | cons a l ih =>
    rw [List.map_cons] at hnd hz
    have hlast : prev y ≠ x := by
      intro heq
      have hmem := h.2.2.prev_mem
      rw [heq] at hmem
      exact (List.nodup_cons.mp hnd).1 hmem
    refine ⟨?_, ?_, ih h.2.2 (List.nodup_cons.mp hnd).2 ?_⟩
    · rw [Function.update_of_ne hlast.symm]
      exact h.1
    · have hne : some a ≠ z := fun heq => hz (heq ▸ List.mem_cons_self ..)
      rw [Function.update_of_ne hne]
      exact h.2.1
    · exact fun hmem => hz (List.mem_cons_of_mem _ hmem)

end Seg

-- ======== circular lists

/-- The list through the sentinel has the nodes `l`, each once. -/
structure CircList (next prev : Option α → Option α) (l : List α) : Prop where
  seg : Seg next prev none l none
  nodup : l.Nodup

namespace CircList

variable {l : List α} {b : α}

theorem nodup_map (h : l.Nodup) : (none :: l.map some).Nodup := by
  refine List.nodup_cons.mpr ⟨by simp, ?_⟩
  exact h.map fun _ _ => Option.some.inj

/-- A sentinel that points to itself. -/
theorem empty (hn : next none = none) (hp : prev none = none) :
    CircList next prev [] := ⟨⟨hn, hp⟩, List.nodup_nil⟩

variable [DecidableEq α]

/-- The neighbours of a node are joined. -/
theorem unlink {pre post : List α} (h : CircList next prev (pre ++ b :: post)) :
    CircList (Function.update next (prev (some b)) (next (some b)))
      (Function.update prev (next (some b)) (prev (some b))) (pre ++ post) := by
  obtain ⟨h1, h2⟩ := Seg.split.mp h.seg
  have hnd : (pre ++ post).Nodup :=
    h.nodup.sublist (List.sublist_cons_self b post |>.append_left pre)
  refine ⟨?_, hnd⟩
  have hdisj : ∀ c ∈ b :: post, c ∉ pre := fun c hc hpre =>
    List.disjoint_of_nodup_append h.nodup hpre hc
  have hpre : (none :: pre.map some).Nodup := nodup_map hnd.of_append_left
  cases post with
  | nil =>
    rw [List.append_nil]
    have hz : next (some b) ∉ pre.map some := by rw [h2.1]; simp
    have hseg := h1.redirect hpre hz
    rwa [h2.1] at hseg ⊢
  | cons c post =>
    have hc : c ∉ pre := hdisj c (by simp)
    have hz : next (some b) ∉ pre.map some := by rw [h2.1]; simpa using hc
    have hseg := h1.redirect hpre hz
    rw [h2.1] at hseg ⊢
    refine Seg.split.mpr ⟨hseg, h2.2.2.congr (fun w hw => ?_) fun w hw => ?_⟩
    · -- the links of the nodes behind are not touched
      refine Function.update_of_ne (fun heq => ?_) _ _
      have hmem := h1.prev_mem
      rw [← heq] at hmem
      have hw' : w ∈ (c :: post).map some := by
        rw [List.map_cons, List.mem_cons]
        exact hw
      obtain ⟨d, hd, rfl⟩ := List.mem_map.mp hw'
      have hd' : d ∈ pre := by simpa using hmem
      exact hdisj d (List.mem_cons_of_mem _ hd) hd'
    · refine Function.update_of_ne (fun heq => ?_) _ _
      have hcp : c ∉ post := (List.nodup_cons.mp hnd.of_append_right).1
      rcases hw with hw | hw
      · rw [heq] at hw
        exact hcp (by simpa using hw)
      · rw [heq] at hw
        cases hw

/-- A node is put in front. -/
theorem push (h : CircList next prev l) (hb : b ∉ l) : CircList
      (Function.update (Function.update next (some b) (next none)) none (some b))
      (Function.update (Function.update prev (some b) none) (next none) (some b)) (b :: l) := by
  have hseg := h.seg
  refine ⟨⟨Function.update_self .., ?_, ?_⟩, List.nodup_cons.mpr ⟨hb, h.nodup⟩⟩
  · have hne : some b ≠ next none := by
      intro heq
      have hmem := hseg.next_mem
      rw [← heq] at hmem
      exact hb (by simpa using hmem)
    rw [Function.update_of_ne hne, Function.update_self]
  · cases l with
    | nil =>
      refine ⟨?_, ?_⟩
      · rw [Function.update_of_ne (by simp), Function.update_self]
        exact hseg.1
      · rw [hseg.1, Function.update_self]
    | cons c l =>
      have hbc : c ≠ b := fun heq => hb (heq ▸ List.mem_cons_self ..)
      refine ⟨?_, ?_, hseg.2.2.congr (fun w hw => ?_) fun w hw => ?_⟩
      · rw [Function.update_of_ne (by simp), Function.update_self]
        exact hseg.1
      · rw [hseg.1, Function.update_self]
      · have hw' : w ∈ (c :: l).map some := by
          rw [List.map_cons, List.mem_cons]
          exact hw
        obtain ⟨d, hd, rfl⟩ := List.mem_map.mp hw'
        have hdb : d ≠ b := fun heq => hb (heq ▸ hd)
        rw [Function.update_of_ne (by simp), Function.update_of_ne]
        simpa using hdb
      · have hcl : c ∉ l := (List.nodup_cons.mp h.nodup).1
        rw [hseg.1]
        rcases hw with hw | rfl
        · obtain ⟨d, hd, rfl⟩ := List.mem_map.mp hw
          have hdc : d ≠ c := fun heq => hcl (heq ▸ hd)
          have hdb : d ≠ b := fun heq => hb (heq ▸ List.mem_cons_of_mem _ hd)
          rw [Function.update_of_ne (by simpa using hdc),
            Function.update_of_ne (by simpa using hdb)]
        · rw [Function.update_of_ne (by simp), Function.update_of_ne (by simp)]

end CircList

-- ======== scans

/-- A loop along the links `step` that stops at the first node with `q`
or at the sentinel; `none` if it takes more than `n` rounds. -/
def CircList.scan (step : Option α → Option α) (q : α → Bool) : Nat → Option α → Option (Option α)
  | _, none => some none
  | 0, some _ => none
  | n + 1, some a =>
    if q a then some (some a)
    else CircList.scan step q n (step (some a))

theorem Seg.scan_next {x : Option α} {l : List α} {q : α → Bool} {n : Nat}
    (h : Seg next prev x l none) (hn : l.length ≤ n) :
    CircList.scan next q n (next x) = some (l.find? q) := by
  induction l generalizing x n with
  | nil =>
    rw [h.1]
    cases n <;> rfl
  | cons a l ih =>
    obtain ⟨n, rfl⟩ : ∃ m, n = m + 1 := Nat.exists_eq_add_of_le' (Nat.le_of_add_left_le hn)
    rw [h.1]
    unfold CircList.scan
    cases hq : q a with
    | true => rw [if_pos rfl, List.find?_cons_of_pos hq]
    | false =>
      rw [if_neg (by simp), List.find?_cons_of_neg (by simp [hq])]
      exact ih h.2.2 (Nat.le_of_succ_le_succ hn)

theorem Seg.scan_prev {y : Option α} {l : List α} {q : α → Bool} {n : Nat}
    (h : Seg next prev none l y) (hn : l.length ≤ n) :
    CircList.scan prev q n (prev y) = some (l.reverse.find? q) := by
  induction l using List.reverseRecOn generalizing y n with
  | nil =>
    rw [h.2]
    cases n <;> rfl
  | append_singleton l a ih =>
    obtain ⟨h1, h2⟩ := Seg.split.mp h
    rw [List.length_append, List.length_singleton] at hn
    obtain ⟨n, rfl⟩ : ∃ m, n = m + 1 := Nat.exists_eq_add_of_le' (Nat.le_of_add_left_le hn)
    rw [h2.2, List.reverse_append, List.reverse_singleton, List.singleton_append]
    unfold CircList.scan
    cases hq : q a with
    | true => rw [if_pos rfl, List.find?_cons_of_pos hq]
    | false =>
      rw [if_neg (by simp), List.find?_cons_of_neg (by simp [hq])]
      exact ih h1 (Nat.le_of_succ_le_succ hn)
