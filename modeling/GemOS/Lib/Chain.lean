/-
Singly linked chains, and the first minimum of a list.

`Chain next p l` says that following `next` from the pointer `p` visits
exactly the nodes `l` and ends in null. A chain is a fact about the
links of its own nodes only (`Chain.congr`), and the three ways a queue
edits one are lemmas: appending behind the last node, dropping the head
(which needs no lemma beyond the definition) and bypassing an inner
node.

`FirstMin key pre a post` splits a list at its first element of least
key. It is the loop invariant of every "strictly better replaces the
best so far" scan; `FirstMin.replace` and `FirstMin.keep` are the two
outcomes of a round.
-/
import Mathlib.Logic.Function.Basic
import Mathlib.Data.List.Basic
import Mathlib.Data.List.Nodup
import Mathlib.Order.Lattice

-- ======== chains

/-- Following `next` from `p` visits `l` and then ends. -/
def Chain {α : Type} (next : α → Option α) : Option α → List α → Prop
  | p, [] => p = none
  | p, a :: l => p = some a ∧ Chain next (next a) l

namespace Chain

variable {α : Type} {next next' : α → Option α} {p : Option α}

variable {l post pre : List α} {a : α}

/-- A chain reads the links of its own nodes only. -/
theorem congr (h : Chain next p l) (hnext : ∀ a ∈ l, next' a = next a) : Chain next' p l := by
  induction l generalizing p with
  | nil => exact h
  | cons a l ih =>
    refine ⟨h.1, ?_⟩
    rw [hnext a (List.mem_cons_self ..)]
    exact ih h.2 fun b hb => hnext b (List.mem_cons_of_mem _ hb)

/-- The visited list is determined. -/
theorem unique {l' : List α} (h : Chain next p l) (h' : Chain next p l') : l = l' := by
  induction l generalizing p l' with
  | nil =>
    cases l' with
    | nil => rfl
    | cons b l' =>
      have hp : p = none := h
      rw [hp] at h'
      exact absurd h'.1 (by simp)
  | cons a l ih =>
    cases l' with
    | nil =>
      have hp : p = none := h'
      rw [hp] at h
      exact absurd h.1 (by simp)
    | cons b l' =>
      have hab : a = b := Option.some.inj (h.1.symm.trans h'.1)
      subst hab
      rw [ih h.2 h'.2]

/-- The start of a chain is its first node. -/
theorem start (h : Chain next p l) : p = l.head? := by
  cases l with
  | nil => exact h
  | cons a l => exact h.1

/-- Splitting a chain at a node: what is behind it hangs off its
link. -/
theorem split (h : Chain next p (pre ++ a :: post)) : Chain next (next a) post := by
  induction pre generalizing p with
  | nil => exact h.2
  | cons b pre ih => exact ih h.2

variable [DecidableEq α]

/-- Redirecting the last node of a segment to another chain. -/
theorem relink {q : Option α} (h : Chain next p (pre ++ a :: post))
    (hnd : (pre ++ [a]).Nodup) (hq : Chain (Function.update next a q) q l) :
    Chain (Function.update next a q) p (pre ++ a :: l) := by
  induction pre generalizing p with
  | nil =>
    refine ⟨h.1, ?_⟩
    rw [Function.update_self]
    exact hq
  | cons b pre ih =>
    have hba : b ≠ a := by
      intro hba
      subst hba
      exact (List.nodup_cons.mp hnd).1 (by simp)
    refine ⟨h.1, ?_⟩
    rw [Function.update_of_ne hba]
    exact ih h.2 (List.nodup_cons.mp hnd).2

/-- Appending a fresh node behind the last one. -/
theorem append {r : α} (h : Chain next p (l ++ [a])) (hnd : (l ++ [a]).Nodup)
    (hr : next r = none) (hra : r ≠ a) :
    Chain (Function.update next a (some r)) p (l ++ [a, r]) := by
  refine relink h hnd ⟨rfl, ?_⟩
  rw [Function.update_of_ne hra]
  exact hr

/-- Bypassing a node: its predecessor inherits its link. -/
theorem bypass {b : α} (h : Chain next p (pre ++ a :: b :: post))
    (hnd : (pre ++ a :: b :: post).Nodup) :
    Chain (Function.update next a (next b)) p (pre ++ a :: post) := by
  have hpa : (pre ++ [a]).Nodup := by
    refine hnd.sublist ?_
    exact List.Sublist.append_left (by simp) pre
  refine relink h hpa ?_
  -- what hangs off `b` does not contain `a`, so its links are untouched
  have h' : Chain next p ((pre ++ [a]) ++ b :: post) := by simpa using h
  have hb : Chain next (next b) post := h'.split
  refine hb.congr fun c hc => Function.update_of_ne ?_ _ _
  intro hca
  subst hca
  have hnd' : (c :: b :: post).Nodup := hnd.of_append_right
  exact (List.nodup_cons.mp hnd').1 (List.mem_cons_of_mem _ hc)

end Chain

-- ======== first minimum

/-- `a` is the first element of least key in `pre ++ a :: post`. -/
structure FirstMin {α κ : Type} [LinearOrder κ] (key : α → κ)
    (pre : List α) (a : α) (post : List α) : Prop where
  before : ∀ x ∈ pre, key a < key x
  after : ∀ x ∈ post, key a ≤ key x

namespace FirstMin

variable {α κ : Type} [LinearOrder κ] {key : α → κ} {pre post : List α} {a x : α}

/-- A strictly smaller element takes over. -/
theorem replace (h : FirstMin key pre a post) (hx : key x < key a) :
    FirstMin key (pre ++ a :: post) x [] := by
  refine ⟨?_, fun y hy => absurd hy (by simp)⟩
  intro y hy
  rcases List.mem_append.mp hy with hy | hy
  · exact hx.trans (h.before y hy)
  · rcases List.mem_cons.mp hy with rfl | hy
    · exact hx
    · exact hx.trans_le (h.after y hy)

/-- Any other element is passed over. -/
theorem keep (h : FirstMin key pre a post) (hx : ¬ key x < key a) :
    FirstMin key pre a (post ++ [x]) := by
  refine ⟨h.before, fun y hy => ?_⟩
  rcases List.mem_append.mp hy with hy | hy
  · exact h.after y hy
  · rw [List.mem_singleton.mp hy]
    exact not_lt.mp hx

/-- A list has one first minimum. -/
theorem unique {pre' post' : List α} {a' : α} (h : FirstMin key pre a post)
    (h' : FirstMin key pre' a' post') (heq : pre ++ a :: post = pre' ++ a' :: post') : a = a' := by
  -- if one split comes first, its minimum lies before the other's
  have hfirst : ∀ {pre pre' post post' mid : List α} {a a' : α},
      FirstMin key pre a post → FirstMin key pre' a' post' →
      pre' = pre ++ mid → a :: post = mid ++ a' :: post' → a = a' := by
    intro pre pre' post post' mid a a' h h' hpre hpost
    cases mid with
    | nil => exact (List.cons.inj hpost).1
    | cons x mid =>
      obtain ⟨rfl, rfl⟩ := List.cons.inj hpost
      have hlt := h'.before a (by rw [hpre]; simp)
      have hle := h.after a' (by simp)
      exact absurd hlt (not_lt.mpr hle)
  rcases List.append_eq_append_iff.mp heq with ⟨mid, h1, h2⟩ | ⟨mid, h1, h2⟩
  · exact hfirst h h' h1 h2
  · exact (hfirst h' h h1 h2).symm

end FirstMin
