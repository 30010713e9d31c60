/-
Weakest preconditions of programs that can fault.

`wp E x Q s` says how the run of `x` from `s` may end: with a value and
a state that satisfy `Q`, or with a fault that satisfies `E`. Where a
`Triple` is silent about faults, `wp` is total: with an `E` that allows
no fault it says that `x` returns (`wp.total`), and with one that allows
all but a few it says that those never happen (`wp.error`). Notes are
not looked at.

`Within E R x` is the same for a relation between the state before and
the state after, from every state; for a preorder `R` it composes.
-/
import GemOS.Lib.Prog

namespace Prog

variable {σ ε κ α β : Type} {E : ε → Prop} {s : σ}

/-- From `s`, `x` returns with `Q` or faults with `E`. -/
def wp (E : ε → Prop) (x : Prog σ ε κ α) (Q : α → σ → Prop) (s : σ) : Prop :=
  match x s with
  | .error e => E e
  | .ok (a, s', _) => Q a s'

namespace wp

variable {x : Prog σ ε κ α} {f : α → Prog σ ε κ β} {Q Q' : α → σ → Prop} {R : β → σ → Prop}

-- ======== one run

variable {a : α} {s' : σ} {t : Notes κ σ} {e : ε} {g : σ → σ} {M : α → σ → Prop}
  {c : Prop} {y : Prog σ ε κ α}

theorem of_ok (h : x s = .ok (a, s', t)) (hQ : Q a s') : wp E x Q s := by
  unfold wp
  rw [h]
  exact hQ

theorem ok (h : wp E x Q s) (hrun : x s = .ok (a, s', t)) : Q a s' := by
  unfold wp at h
  rw [hrun] at h
  exact h

theorem error (h : wp E x Q s) (hrun : x s = .error e) : E e := by
  unfold wp at h
  rw [hrun] at h
  exact h

/-- Where the faults that are allowed cannot happen, the program
returns. -/
theorem returns (h : wp E x Q s) (hE : ∀ e, ¬ E e) : ∃ a s' t, x s = .ok (a, s', t) ∧ Q a s' := by
  unfold wp at h
  split at h
  · exact (hE _ h).elim
  · next a s' t hrun => exact ⟨a, s', t, hrun, h⟩

theorem total (h : wp (fun _ => False) x Q s) :
    ∃ a s' t, x s = .ok (a, s', t) ∧ Q a s' := h.returns fun _ he => he

/-- Where no result is allowed, it faults. -/
theorem fails (h : wp E x (fun _ _ => False) s) : ∃ e, x s = .error e ∧ E e := by
  unfold wp at h
  split at h
  · next e hrun => exact ⟨e, hrun, h⟩
  · exact h.elim

-- ======== the commands

theorem pure (h : Q a s) : wp E (pure a : Prog σ ε κ α) Q s := h

theorem modify {Q : Unit → σ → Prop} (h : Q () (g s)) : wp E (modify g : Prog σ ε κ Unit) Q s := h

theorem fault (h : E e) : wp E (fault e : Prog σ ε κ α) Q s := h

theorem bind (hx : wp E x M s) (hf : ∀ a s', M a s' → wp E (f a) R s') : wp E (x >>= f) R s := by
  unfold wp at hx
  split at hx
  · next e hrun =>
    unfold wp
    rw [bind_run_error f hrun]
    exact hx
  · next a s' t hrun =>
    have h := hf a s' hx
    unfold wp at h ⊢
    rw [bind_run_ok hrun]
    cases hrun' : f a s' with
    | error e => rw [hrun'] at h; exact h
    | ok r => rw [hrun'] at h; exact h

/-- What the first program has to achieve is that the second may run. -/
theorem seq (h : wp E x (fun a s' => wp E (f a) R s') s) :
    wp E (x >>= f) R s := h.bind fun _ _ hf => hf

theorem pure_bind (h : wp E (f a) R s) : wp E ((Pure.pure a : Prog σ ε κ α) >>= f) R s := by
  unfold wp
  rw [pure_bind_run]
  exact h

theorem get_bind {f : σ → Prog σ ε κ β} (h : wp E (f s) R s) : wp E (get >>= f) R s := by
  unfold wp
  rw [get_bind_run]
  exact h

theorem modify_bind {f : Unit → Prog σ ε κ β} (h : wp E (f ()) R (g s)) :
    wp E (Prog.modify g >>= f) R s := by
  unfold wp
  rw [modify_bind_run]
  exact h

theorem note_bind {k : κ} {f : Unit → Prog σ ε κ β} (h : wp E (f ()) R s) :
    wp E (note k >>= f) R s :=
  bind (M := fun _ s' => s' = s) rfl fun _ _ hs => hs ▸ h

theorem ite [Decidable c] (hx : c → wp E x Q s) (hy : ¬ c → wp E y Q s) :
    wp E (if c then x else y) Q s := by
  by_cases hc : c
  · rw [if_pos hc]; exact hx hc
  · rw [if_neg hc]; exact hy hc

/-- Two ways to a common rest. -/
theorem ite_bind [Decidable c] (hx : c → wp E x M s) (hy : ¬ c → wp E y M s)
    (hf : ∀ a s', M a s' → wp E (f a) R s') : wp E (if c then x >>= f else y >>= f) R s :=
  ite (fun hc => bind (hx hc) hf) fun hc => bind (hy hc) hf

theorem zoom {τ : Type} {part : τ → σ} {put : τ → σ → τ} {u : τ}
    (h : wp E x Q (part u)) {R : α → τ → Prop}
    (hR : ∀ a c, Q a c → R a (put u c)) : wp E (zoom part put x) R u := by
  unfold wp at h ⊢
  unfold Prog.zoom
  revert h
  cases x (part u) with
  | error e => exact id
  | ok r => exact hR r.1 r.2.1

-- ======== consequence

theorem mono (h : wp E x Q s) (hQ : ∀ a s', Q a s' → Q' a s') : wp E x Q' s := by
  unfold wp at h ⊢
  split at h
  · exact h
  · exact hQ _ _ h

/-- More faults may be allowed. -/
theorem weaken {E' : ε → Prop} (h : wp E x Q s) (hE : ∀ e, E e → E' e) : wp E' x Q s := by
  unfold wp at h ⊢
  split at h
  · exact hE _ h
  · exact h

/-- What is known of the returning run can be added. -/
theorem and_ok (h : wp E x Q s) (hrun : ∀ a s' t, x s = .ok (a, s', t) → Q' a s') :
    wp E x (fun a s' => Q a s' ∧ Q' a s') s := by
  unfold wp at h ⊢
  split at h
  · exact h
  · next a s' t hx => exact ⟨h, hrun a s' t hx⟩

end wp

-- ======== relations

/-- Wherever `x` starts, it ends in a state related by `R` or in a fault
that satisfies `E`. -/
def Within (E : ε → Prop) (R : σ → σ → Prop) (x : Prog σ ε κ α) : Prop :=
  ∀ s, wp E x (fun _ s' => R s s') s

namespace Within

variable {R : σ → σ → Prop} {x y : Prog σ ε κ α} {f : α → Prog σ ε κ β}

theorem modify {g : σ → σ} (h : ∀ s, R s (g s)) : Within E R (modify g : Prog σ ε κ Unit) := h

theorem fault {e : ε} (h : E e) : Within E R (fault e : Prog σ ε κ α) := fun _ => h

theorem mono {R' : σ → σ → Prop} (h : Within E R x) (hR : ∀ {s s'}, R s s' → R' s s') :
    Within E R' x := fun s => (h s).mono fun _ _ => hR

theorem ite {c : Prop} [Decidable c] (hx : Within E R x)
    (hy : Within E R y) : Within E R (if c then x else y) := fun s =>
  .ite (fun _ => hx s) fun _ => hy s

theorem pure [Std.Refl R] (a : α) : Within E R (pure a : Prog σ ε κ α) := fun s => Std.Refl.refl s

theorem get [Std.Refl R] : Within E R (get : Prog σ ε κ σ) := fun s => Std.Refl.refl s

theorem bind [IsTrans σ R] (hx : Within E R x) (hf : ∀ a, Within E R (f a)) :
    Within E R (x >>= f) := fun s =>
  (hx s).bind fun a s' h => (hf a s').mono fun _ _ h' => IsTrans.trans _ _ _ h h'

end Within

end Prog
