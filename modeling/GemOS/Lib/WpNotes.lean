/-
Weakest preconditions that see the notes.

`wpn E x Q s` is `wp E x Q s` with a postcondition that is also about the
notes the run has left. Most programs leave none; `quiet` sequences such a
program with what follows it.
-/
import GemOS.Lib.Wp

namespace Prog

variable {σ ε κ α β : Type} {E : ε → Prop} {s : σ}

/-- From `s`, `x` faults with `E` or returns with `Q` of its value, its
state and its notes. -/
def wpn (E : ε → Prop) (x : Prog σ ε κ α) (Q : α → σ → Notes κ σ → Prop) (s : σ) : Prop :=
  match x s with
  | .error e => E e
  | .ok (a, s', t) => Q a s' t

namespace wpn

variable {x : Prog σ ε κ α} {f : α → Prog σ ε κ β}
  {Q Q' : α → σ → Notes κ σ → Prop} {R : β → σ → Notes κ σ → Prop}

theorem ok {a : α} {s' : σ} {t : Notes κ σ} (h : wpn E x Q s)
    (hrun : x s = .ok (a, s', t)) : Q a s' t := by
  unfold wpn at h
  rw [hrun] at h
  exact h

theorem error {e : ε} (h : wpn E x Q s) (hrun : x s = .error e) : E e := by
  unfold wpn at h
  rw [hrun] at h
  exact h

/-- Where no fault is allowed, the program returns. -/
theorem total (h : wpn (fun _ => False) x Q s) : ∃ a s' t, x s = .ok (a, s', t) ∧ Q a s' t := by
  unfold wpn at h
  revert h
  cases x s with
  | error e => exact False.elim
  | ok r => exact fun h => ⟨_, _, _, rfl, h⟩

theorem pure {a : α} (h : Q a s []) : wpn E (Pure.pure a : Prog σ ε κ α) Q s := h

theorem modify {g : σ → σ} {Q : Unit → σ → Notes κ σ → Prop}
    (h : Q () (g s) []) : wpn E (Prog.modify g : Prog σ ε κ Unit) Q s := h

theorem fault {e : ε} (h : E e) : wpn E (Prog.fault e : Prog σ ε κ α) Q s := h

theorem mono (h : wpn E x Q s) (hQ : ∀ a s' t, Q a s' t → Q' a s' t) : wpn E x Q' s := by
  unfold wpn at h ⊢
  revert h
  cases x s with
  | error e => exact id
  | ok r => exact hQ _ _ _

theorem bind {M : α → σ → Notes κ σ → Prop} (hx : wpn E x M s) (hf : ∀ a s' t, M a s' t →
      wpn E (f a) (fun b s'' t' => R b s'' (t ++ t')) s') :
    wpn E (x >>= f) R s := by
  unfold wpn at hx
  cases hrun : x s with
  | error e =>
    rw [hrun] at hx
    unfold wpn
    rw [bind_run_error f hrun]
    exact hx
  | ok r =>
    obtain ⟨a, s', t⟩ := r
    rw [hrun] at hx
    have h := hf a s' t hx
    unfold wpn at h ⊢
    rw [bind_run_ok hrun]
    revert h
    cases f a s' with
    | error e => exact id
    | ok r => exact id

/-- A program that leaves no notes. -/
theorem quiet {M : α → σ → Prop} (hx : wpn E x (fun a s' t => t = [] ∧ M a s') s)
    (hf : ∀ a s', M a s' → wpn E (f a) R s') : wpn E (x >>= f) R s := by
  refine hx.bind fun a s' t h => ?_
  obtain ⟨rfl, hM⟩ := h
  exact hf a s' hM

theorem pure_bind {a : α} (h : wpn E (f a) R s) :
    wpn E ((Pure.pure a : Prog σ ε κ α) >>= f) R s := by
  unfold wpn
  rw [pure_bind_run]
  exact h

theorem get_bind {f : σ → Prog σ ε κ β} (h : wpn E (f s) R s) : wpn E (Prog.get >>= f) R s := by
  unfold wpn
  rw [get_bind_run]
  exact h

theorem modify_bind {g : σ → σ} {f : Unit → Prog σ ε κ β}
    (h : wpn E (f ()) R (g s)) : wpn E (Prog.modify g >>= f) R s := by
  unfold wpn
  rw [modify_bind_run]
  exact h

theorem note_bind {k : κ} {f : Unit → Prog σ ε κ β}
    (h : wpn E (f ()) (fun b s' t => R b s' ((k, s) :: t)) s) : wpn E (Prog.note k >>= f) R s :=
  bind (M := fun _ s' t => s' = s ∧ t = [(k, s)]) ⟨rfl, rfl⟩ fun _ _ _ hM => by
      obtain ⟨rfl, rfl⟩ := hM
      exact h

theorem ite {c : Prop} [Decidable c] {y : Prog σ ε κ α}
    (hx : c → wpn E x Q s) (hy : ¬ c → wpn E y Q s) : wpn E (if c then x else y) Q s := by
  by_cases hc : c
  · rw [if_pos hc]; exact hx hc
  · rw [if_neg hc]; exact hy hc

end wpn

end Prog
