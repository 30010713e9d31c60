/-
Stateful programs that can fault and that leave notes behind: the
command language every model function of the development is written
in, and the pre/postcondition rules the proofs run on.

# The semantics

A `Prog σ ε κ α` takes a state, and either faults (`ε`) or returns a
value, a new state and its notes. A note is a label of type `κ`
together with the state at which it was left, so a hypothesis about a
run ("whenever the program reached point `k`, the state satisfied
`G k`") can be said about the notes of the run and needs no ghost
field in the state.

# The rules

`Triple G P x Q` is partial correctness under such a hypothesis: from
`P`, a run of `x` that returns and whose notes all satisfy `G` ends in
`Q`. The rule for `note` is the only place where `G` enters, and it
hands its instance to the continuation; a fault satisfies every
postcondition. `bind` splits the notes of a sequence at the seam, so
no rule mentions traces otherwise.
-/
import Mathlib.Logic.Basic
import Mathlib.Data.List.Basic

/-- A program over states `σ` with faults `ε` and notes labelled `κ`. -/
def Prog (σ ε κ α : Type) : Type :=
  σ → Except ε (α × σ × List (κ × σ))

namespace Prog

variable {σ ε κ α β : Type}

-- ======== the commands

/-- Sequencing: the first fault wins, the notes accumulate in order. -/
protected def bind (x : Prog σ ε κ α) (f : α → Prog σ ε κ β) : Prog σ ε κ β := fun s =>
  match x s with
  | .error e => .error e
  | .ok (a, s1, t1) =>
    match f a s1 with
    | .error e => .error e
    | .ok (b, s2, t2) => .ok (b, s2, t1 ++ t2)

instance : Monad (Prog σ ε κ) where
  pure a := fun s => .ok (a, s, [])
  bind := Prog.bind

/-- Read the state. -/
def get : Prog σ ε κ σ := fun s => .ok (s, s, [])

/-- Rewrite the state. -/
def modify (f : σ → σ) : Prog σ ε κ Unit := fun s => .ok ((), f s, [])

/-- Leave a note at the current state. -/
def note (k : κ) : Prog σ ε κ Unit := fun s => .ok ((), s, [(k, s)])

/-- Stop with a fault. -/
def fault (e : ε) : Prog σ ε κ α := fun _ => .error e

/-- The state a run ends in; a run that faults stays where it was. -/
def after (x : Prog σ ε κ α) (s : σ) : σ :=
  match x s with
  | .ok (_, s', _) => s'
  | .error _ => s

-- ======== evaluation

@[simp] theorem pure_run (a : α) (s : σ) : (pure a : Prog σ ε κ α) s = .ok (a, s, []) := rfl

@[simp] theorem get_run (s : σ) : (get : Prog σ ε κ σ) s = .ok (s, s, []) := rfl

@[simp] theorem modify_run (f : σ → σ) (s : σ) :
    (modify f : Prog σ ε κ Unit) s = .ok ((), f s, []) := rfl

@[simp] theorem note_run (k : κ) (s : σ) :
    (note k : Prog σ ε κ Unit) s = .ok ((), s, [(k, s)]) := rfl

@[simp] theorem fault_run (e : ε) (s : σ) : (fault e : Prog σ ε κ α) s = .error e := rfl

variable {a : α} {s s' s1 s2 : σ} {x y : Prog σ ε κ α} {f : α → Prog σ ε κ β} {b : β}
  {t1 t2 : List (κ × σ)}

theorem bind_run_ok (h : x s = .ok (a, s1, t1)) : (x >>= f) s = match f a s1 with
        | .error e => .error e
        | .ok (b, s2, t2) => .ok (b, s2, t1 ++ t2) := by
  show Prog.bind x f s = _
  unfold Prog.bind
  rw [h]

@[simp] theorem pure_bind_run (a : α) (f : α → Prog σ ε κ β) (s : σ) :
    ((pure a : Prog σ ε κ α) >>= f) s = f a s := by
  rw [bind_run_ok (pure_run a s)]
  cases f a s <;> rfl

@[simp] theorem get_bind_run (f : σ → Prog σ ε κ β) (s : σ) : (get >>= f) s = f s s := by
  rw [bind_run_ok (get_run s)]
  cases f s s <;> rfl

@[simp] theorem modify_bind_run (g : σ → σ) (f : Unit → Prog σ ε κ β)
    (s : σ) : (modify g >>= f) s = f () (g s) := by
  rw [bind_run_ok (modify_run g s)]
  cases f () (g s) <;> rfl

/-- A first half without notes is substituted away. -/
theorem bind_run_quiet (h : x s = .ok (a, s1, [])) : (x >>= f) s = f a s1 := by
  rw [bind_run_ok h]
  cases f a s1 <;> rfl

/-- Peeling a returning sequence: both halves returned, and the notes
split at the seam. -/
theorem bind_ok {t : List (κ × σ)} (h : (x >>= f) s = .ok (b, s2, t)) :
    ∃ a s1 t1 t2, x s = .ok (a, s1, t1) ∧ f a s1 = .ok (b, s2, t2) ∧ t = t1 ++ t2 := by
  change Prog.bind x f s = _ at h
  unfold Prog.bind at h
  split at h
  · cases h
  · next a s1 t1 hx =>
    split at h
    · cases h
    · next b' s2' t2 hf =>
      cases h
      exact ⟨a, s1, t1, t2, hx, hf, rfl⟩

/-- Composing two returning halves. -/
theorem ok_bind (hx : x s = .ok (a, s1, t1)) (hf : f a s1 = .ok (b, s2, t2)) :
    (x >>= f) s = .ok (b, s2, t1 ++ t2) := by
  rw [bind_run_ok hx, hf]

/-- What follows a program depends on its outcome only. -/
theorem bind_run_congr (f : α → Prog σ ε κ β) (h : x s = y s') : (x >>= f) s = (y >>= f) s' := by
  show Prog.bind x f s = Prog.bind y f s'
  unfold Prog.bind
  rw [h]

theorem bind_run_error (f : α → Prog σ ε κ β)
    {e : ε} (h : x s = .error e) : (x >>= f) s = .error e := by
  show Prog.bind x f s = _
  unfold Prog.bind
  rw [h]

instance : LawfulMonad (Prog σ ε κ) := by
  refine LawfulMonad.mk' _ ?_ (fun a f => funext (pure_bind_run a f)) ?_
  · intro α x
    funext s
    cases hx : x s with
    | error e => exact bind_run_error _ hx
    | ok r =>
      obtain ⟨a, s1, t1⟩ := r
      show (x >>= pure) s = _
      rw [bind_run_ok hx]
      simp only [pure_run, List.append_nil]
  · intro α β γ x f g
    funext s
    cases hx : x s with
    | error e => rw [bind_run_error _ hx, bind_run_error _ (bind_run_error _ hx)]
    | ok r =>
      obtain ⟨a, s1, t1⟩ := r
      rw [bind_run_ok hx]
      cases hf : f a s1 with
      | error e =>
        have hxf : (x >>= f) s = .error e := by rw [bind_run_ok hx, hf]
        rw [bind_run_error _ hxf, bind_run_error _ hf]
      | ok r' =>
        obtain ⟨b, s2, t2⟩ := r'
        rw [bind_run_ok (ok_bind hx hf), bind_run_ok hf]
        cases g b s2 with
        | error e => rfl
        | ok r'' => simp only [List.append_assoc]

-- ======== frames

section keeps

variable {γ : Type} {f : σ → γ}

/-- Every returning run of `x` leaves the part `f` of the state alone. -/
def Keeps (f : σ → γ) (x : Prog σ ε κ α) : Prop :=
  ∀ ⦃s a s' t⦄, x s = .ok (a, s', t) → f s' = f s

/-- A function of a part left alone. -/
theorem Keeps.comp {δ : Type} (h : Keeps f x) (g : γ → δ) : Keeps (fun s => g (f s)) x :=
  fun _ _ _ _ hrun => congrArg g (h hrun)

theorem Keeps.pure (a : α) : Keeps f (Pure.pure a : Prog σ ε κ α) := by
  intro s a' s' t h
  cases h
  rfl

theorem Keeps.bind {g : α → Prog σ ε κ β}
    (hx : Keeps f x) (hg : ∀ a, Keeps f (g a)) : Keeps f (x >>= g) := by
  intro s b s' t h
  obtain ⟨a, s1, t1, t2, h1, h2, -⟩ := bind_ok h
  exact (hg a h2).trans (hx h1)

theorem Keeps.get : Keeps f (Prog.get : Prog σ ε κ σ) := by
  intro s a s' t h
  cases h
  rfl

theorem Keeps.modify {g : σ → σ} (hg : ∀ s, f (g s) = f s) :
    Keeps f (Prog.modify g : Prog σ ε κ Unit) := by
  intro s a s' t h
  cases h
  exact hg s

theorem Keeps.note (k : κ) : Keeps f (Prog.note k : Prog σ ε κ Unit) := by
  intro s a s' t h
  cases h
  rfl

theorem Keeps.fault (e : ε) : Keeps f (Prog.fault e : Prog σ ε κ α) := fun _ _ _ _ h => nomatch h

theorem Keeps.ite {c : Prop} [Decidable c]
    (hx : Keeps f x) (hy : Keeps f y) : Keeps f (if c then x else y) := by
  by_cases hc : c
  · rw [if_pos hc]; exact hx
  · rw [if_neg hc]; exact hy

end keeps

-- ======== triples

/-- Notes in the order they were left, oldest first. -/
abbrev Notes (κ σ : Type) : Type := List (κ × σ)

/-- Partial correctness under a hypothesis on the notes: from `P`, a
returning run whose notes all satisfy `G` ends in `Q`. Assertions see
the notes left so far, so that they can speak of the past. -/
def Triple (G : κ → σ → Prop) (P : Notes κ σ → σ → Prop)
    (x : Prog σ ε κ α) (Q : α → Notes κ σ → σ → Prop) : Prop :=
  ∀ ⦃h s a s' t⦄, P h s → x s = .ok (a, s', t) → (∀ n ∈ t, G n.1 n.2) → Q a (h ++ t) s'

namespace Triple

variable {G : κ → σ → Prop} {P P' : Notes κ σ → σ → Prop} {Q Q' : α → Notes κ σ → σ → Prop}

theorem pure (h : ∀ n s, P n s → Q a n s) : Triple G P (pure a : Prog σ ε κ α) Q := by
  intro n s a' s' t hP hrun _
  cases hrun
  rw [List.append_nil]
  exact h n s hP

theorem bind {M : α → Notes κ σ → σ → Prop} {R : β → Notes κ σ → σ → Prop}
    (hx : Triple G P x M) (hf : ∀ a, Triple G (M a) (f a) R) : Triple G P (x >>= f) R := by
  intro n s b s' t hP hrun hG
  obtain ⟨a, s1, t1, t2, h1, h2, rfl⟩ := bind_ok hrun
  have hM : M a (n ++ t1) s1 := hx hP h1 fun m hm => hG m (List.mem_append_left _ hm)
  rw [← List.append_assoc]
  exact hf a hM h2 fun m hm => hG m (List.mem_append_right _ hm)

theorem conseq (hx : Triple G P' x Q')
    (hP : ∀ n s, P n s → P' n s) (hQ : ∀ a n s, Q' a n s → Q a n s) :
    Triple G P x Q :=
  fun _ _ _ _ _ h hrun hG => hQ _ _ _ (hx (hP _ _ h) hrun hG)

theorem pre (hx : Triple G P' x Q) (hP : ∀ n s, P n s → P' n s) : Triple G P x Q :=
  hx.conseq hP fun _ _ _ h => h

theorem post (hx : Triple G P x Q') (hQ : ∀ a n s, Q' a n s → Q a n s) : Triple G P x Q :=
  hx.conseq (fun _ _ h => h) hQ

/-- Reading the state names it. -/
theorem get_bind {f : σ → Prog σ ε κ α} (h : ∀ s0, Triple G (fun n s => P n s ∧ s = s0) (f s0) Q) :
    Triple G P (Prog.get >>= f) Q := by
  intro n s a s' t hP hrun hG
  rw [get_bind_run] at hrun
  exact h s ⟨hP, rfl⟩ hrun hG

theorem modify {f : σ → σ} {R : Unit → Notes κ σ → σ → Prop} (h : ∀ n s, P n s → R () n (f s)) :
    Triple G P (modify f : Prog σ ε κ Unit) R := by
  intro n s u s' t hP hrun _
  cases hrun
  rw [List.append_nil]
  exact h n s hP

/-- A note hands its instance of the hypothesis to what follows. -/
theorem note {k : κ} {R : Unit → Notes κ σ → σ → Prop}
    (h : ∀ n s, P n s → G k s → R () (n ++ [(k, s)]) s) :
    Triple G P (note k : Prog σ ε κ Unit) R := by
  intro n s u s' t hP hrun hG
  cases hrun
  exact h n s hP (hG (k, s) (List.mem_singleton.mpr rfl))

theorem fault {e : ε} : Triple G P (fault e : Prog σ ε κ α) Q :=
  fun _ _ _ _ _ _ hrun _ => nomatch hrun

theorem ite {c : Prop} [Decidable c]
    (hx : c → Triple G P x Q) (hy : ¬ c → Triple G P y Q) : Triple G P (if c then x else y) Q := by
  by_cases hc : c
  · rw [if_pos hc]; exact hx hc
  · rw [if_neg hc]; exact hy hc

/-- What every returning run does to the state, whatever its notes, can be
added to both assertions. -/
theorem and_run {R : σ → Prop} {S : α → σ → Prop} (hx : Triple G P x Q)
    (h : ∀ {s a s' t}, R s → x s = .ok (a, s', t) → S a s') :
    Triple G (fun n s => P n s ∧ R s) x (fun a n s => Q a n s ∧ S a s) :=
  fun _ _ _ _ _ hP hrun hG => ⟨hx hP.1 hrun hG, h hP.2 hrun⟩

/-- In particular what the program leaves alone. -/
theorem keep {γ : Type} {f : σ → γ} (hx : Triple G P x Q) (hf : Keeps f x) (R : γ → Prop) :
    Triple G (fun n s => P n s ∧ R (f s)) x (fun a n s => Q a n s ∧ R (f s)) :=
  hx.and_run fun hR hrun => hf hrun ▸ hR

/-- A pure part of the precondition, moved to the context. -/
theorem of_pre {c : Prop} (hP : ∀ n s, P n s → c) (h : c → Triple G P x Q) : Triple G P x Q :=
  fun _ _ _ _ _ hp hrun hG => h (hP _ _ hp) hp hrun hG

/-- A precondition taken state by state. -/
theorem of_eq (h : ∀ n s, P n s → Triple G (fun n' s' => n' = n ∧ s' = s) x Q) :
    Triple G P x Q :=
  fun n s _ _ _ hP hrun hG => h n s hP ⟨rfl, rfl⟩ hrun hG

end Triple

-- ======== runs

/-- The states a system of programs can reach from `init`, with the
notes of the run, all of which satisfy `G`. -/
inductive Reach {ι : Type} (G : κ → σ → Prop) (init : σ → Prop)
    (prog : ι → Prog σ ε κ Unit) : Notes κ σ → σ → Prop
  | init {s : σ} : init s → Reach G init prog [] s
  | step {n t : Notes κ σ} {s s' : σ} (i : ι) :
      Reach G init prog n s → prog i s = .ok ((), s', t) →
      (∀ m ∈ t, G m.1 m.2) → Reach G init prog (n ++ t) s'

/-- What holds initially and is kept by every program of the system
holds in every state reached. -/
theorem Reach.invariant {ι : Type} {G : κ → σ → Prop} {init : σ → Prop}
    {prog : ι → Prog σ ε κ Unit} {I : Notes κ σ → σ → Prop} (hinit : ∀ s, init s → I [] s)
    (hstep : ∀ i, Triple G I (prog i) fun _ => I)
    {n : Notes κ σ} (hr : Reach G init prog n s) : I n s := by
  induction hr with
  | init h => exact hinit _ h
  | step i _ hrun hG ih => exact hstep i ih hrun hG

/-- A run of some of the programs is a run of the system, and what its
notes satisfy may be weakened. -/
theorem Reach.embed {ι ι' : Type} {G G' : κ → σ → Prop} {init : σ → Prop}
    {prog : ι' → Prog σ ε κ Unit} {f : ι → ι'} (hG : ∀ k s, G k s → G' k s) {n : Notes κ σ}
    (hr : Reach G init (fun i => prog (f i)) n s) : Reach G' init prog n s := by
  induction hr with
  | init h => exact .init h
  | step i _ hrun hn ih => exact .step (f i) ih hrun fun m hm => hG m.1 m.2 (hn m hm)

/-- The runs of a system whose programs start only where `cond` allows,
with steps of the world outside in between. -/
inductive Course {ι : Type} (init : σ → Prop) (world : σ → σ → Prop)
    (prog : ι → Prog σ ε κ Unit) (cond : ι → Notes κ σ → σ → Prop) :
    Notes κ σ → σ → Prop
  | init {s : σ} : init s → Course init world prog cond [] s
  | step {n t : Notes κ σ} {s s' : σ} (i : ι) :
      Course init world prog cond n s → cond i n s →
      prog i s = .ok ((), s', t) → Course init world prog cond (n ++ t) s'
  | world {n : Notes κ σ} {s s' : σ} :
      Course init world prog cond n s → world s s' →
      Course init world prog cond n s'

section course

variable {ι : Type} {init : σ → Prop} {world : σ → σ → Prop}
  {prog : ι → Prog σ ε κ Unit} {cond cond' : ι → Notes κ σ → σ → Prop}

variable {G : κ → σ → Prop} {I : Notes κ σ → σ → Prop} {l : List ι} {n n' : Notes κ σ}

theorem Course.invariant (hinit : ∀ s, init s → I [] s)
    (hstep : ∀ i n t s s', I n s → cond i n s → prog i s = .ok ((), s', t) → I (n ++ t) s')
    (hworld : ∀ n s s', I n s → world s s' → I n s') (hr : Course init world prog cond n s) :
    I n s := by
  induction hr with
  | init h => exact hinit _ h
  | step i _ hc hrun ih => exact hstep i _ _ _ _ ih hc hrun
  | world _ hw ih => exact hworld _ _ _ ih hw

/-- The programs of a list in order, as long as `ok` lets them start and
none faults. -/
def play (ok : ι → Notes κ σ → σ → Bool) (prog : ι → Prog σ ε κ Unit) :
    List ι → Notes κ σ → σ → Option (Notes κ σ × σ)
  | [], n, s => some (n, s)
  | i :: l, n, s =>
    if ok i n s then
      match prog i s with
      | .error _ => none
      | .ok (_, s', t) => play ok prog l (n ++ t) s'
    else none

theorem Course.play {ok : ι → Notes κ σ → σ → Bool} (hok : ∀ i n s, ok i n s = true → cond i n s)
    (hr : Course init world prog cond n s)
    (h : Prog.play ok prog l n s = some (n', s')) : Course init world prog cond n' s' := by
  induction l generalizing n s with
  | nil =>
    cases h
    exact hr
  | cons i l ih =>
    unfold Prog.play at h
    split at h
    · next hi =>
      split at h
      · cases h
      · next hrun => exact ih (hr.step i (hok i n s hi) hrun) h
    · cases h

theorem play_notes {ok : ι → Notes κ σ → σ → Bool}
    (h : Prog.play ok prog l n s = some (n', s')) : ∃ t, n' = n ++ t := by
  induction l generalizing n s with
  | nil =>
    cases h
    exact ⟨[], (List.append_nil _).symm⟩
  | cons i l ih =>
    unfold Prog.play at h
    split at h
    · split at h
      · cases h
      · obtain ⟨t, ht⟩ := ih h
        exact ⟨_, by rw [ht, List.append_assoc]⟩
    · cases h

/-- Programs that run through one after the other, with notes that
satisfy `G`, are a run of the system. -/
theorem Reach.play (hr : Reach G init prog n s)
    (h : Prog.play (fun _ _ _ => true) prog l n s = some (n', s'))
    (hG : ∀ m ∈ n', G m.1 m.2) : Reach G init prog n' s' := by
  induction l generalizing n s with
  | nil =>
    cases h
    exact hr
  | cons i l ih =>
    unfold Prog.play at h
    rw [if_pos rfl] at h
    split at h
    · cases h
    · next s1 t hrun =>
      obtain ⟨t', ht'⟩ := play_notes h
      refine ih (hr.step i hrun fun m hm => hG m ?_) h
      rw [ht']
      exact List.mem_append_left t' (List.mem_append_right n hm)

section played

variable {P : Notes κ σ → σ → Prop} [∀ n s, Decidable (P n s)]

/-- A run that is played to an end where `P` holds. -/
theorem played {o : Option (Notes κ σ × σ)} (h : o.any (fun r => decide (P r.1 r.2)) = true) :
    ∃ n s, o = some (n, s) ∧ P n s := by
  cases o with
  | none => cases h
  | some r => exact ⟨r.1, r.2, rfl, of_decide_eq_true h⟩

theorem Course.played (hr : Course init world prog cond [] s)
    (ok : ι → Notes κ σ → σ → Bool) (hok : ∀ i n s, ok i n s = true → cond i n s)
    (l : List ι) (h : (Prog.play ok prog l [] s).any (fun r => decide (P r.1 r.2)) = true) :
    ∃ n s, Course init world prog cond n s ∧ P n s := by
  obtain ⟨n, s', hplay, hP⟩ := Prog.played h
  exact ⟨n, s', hr.play hok hplay, hP⟩

theorem Reach.played (hr : Reach G init prog [] s)
    (hG : ∀ n s, P n s → ∀ m ∈ n, G m.1 m.2) (l : List ι)
    (h : (Prog.play (fun _ _ _ => true) prog l [] s).any (fun r => decide (P r.1 r.2)) = true) :
    ∃ n s, Reach G init prog n s ∧ P n s := by
  obtain ⟨n, s', hplay, hP⟩ := Prog.played h
  exact ⟨n, s', hr.play hplay (hG n s' hP), hP⟩

end played

end course

-- ======== effects

/-- A run described by its effects, one after the other; each `R s n s'`
is a change of state together with the notes it leaves. -/
inductive Steps (R : σ → Notes κ σ → σ → Prop) : σ → Notes κ σ → σ → Prop
  | refl (s : σ) : Steps R s [] s
  | tail {s s1 s2 : σ} {n m : Notes κ σ} :
      Steps R s n s1 → R s1 m s2 → Steps R s (n ++ m) s2

section steps

variable {R : σ → Notes κ σ → σ → Prop}

theorem Steps.single {n : Notes κ σ} (h : R s n s') : Steps R s n s' := Steps.tail (.refl s) h

theorem Steps.trans {s3 : σ} {n m : Notes κ σ} (h : Steps R s1 n s2)
    (h' : Steps R s2 m s3) : Steps R s1 (n ++ m) s3 := by
  induction h' with
  | refl => rwa [List.append_nil]
  | tail _ hr ih =>
    rw [← List.append_assoc]
    exact ih.tail hr

/-- What every effect keeps, the run keeps. -/
theorem Steps.keeps {I : Notes κ σ → σ → Prop}
    (hR : ∀ h s n s', I h s → R s n s' → I (h ++ n) s') {h n : Notes κ σ}
    (hs : Steps R s n s') (hI : I h s) : I (h ++ n) s' := by
  induction hs with
  | refl => rwa [List.append_nil]
  | tail _ hr ih =>
    rw [← List.append_assoc]
    exact hR _ _ _ _ ih hr

end steps

-- ======== zooming

/-- A program on a part of the state. -/
def zoom {τ : Type} (part : τ → σ) (put : τ → σ → τ) (x : Prog σ ε κ α) :
    Prog τ ε κ α := fun s =>
  match x (part s) with
  | .error e => .error e
  | .ok (a, c, t) => .ok (a, put s c, t.map fun m => (m.1, put s m.2))

-- ======== relabelling

/-- `x` with its notes replaced: it leaves `ev` of its result, at the
state it ends in. -/
def relabel {κ' : Type} (x : Prog σ ε κ α) (ev : α → List κ') :
    Prog σ ε κ' α := fun s =>
  match x s with
  | .error e => .error e
  | .ok (a, s', _) => .ok (a, s', (ev a).map (·, s'))

section relabel

variable {κ' : Type} {x : Prog σ ε κ α} {ev : α → List κ'}

theorem relabel_run {t : Notes κ σ} (h : x s = .ok (a, s', t)) :
    relabel x ev s = .ok (a, s', (ev a).map (·, s')) := by
  unfold relabel
  rw [h]

theorem relabel_ok {t : Notes κ' σ} (h : relabel x ev s = .ok (a, s', t)) :
    t = (ev a).map (·, s') ∧ ∃ n, x s = .ok (a, s', n) := by
  unfold relabel at h
  split at h
  · cases h
  · next hx =>
    cases h
    exact ⟨rfl, _, hx⟩

end relabel

end Prog
