/-
Concurrent code as trees of atomic sections, its interleavings, and a
proof rule for them.

# The language

A `Conc` program is a sequence of sections. A section is a `Prog` that
runs without interruption, a label by which conditions on a run can name
it, and the events it adds to the common log. `alone` forgets the
boundaries: it is the sequential program, and distributes over `bind`
(`alone_bind`), so a concurrent function and its sequential reading are
compared section by section. `solo` is the same run with the events
kept, and `wpe` its weakest precondition.

# The interleavings

A `Pool` is a state, the events so far and one program a thread. In
`Pool.Reach` an idle thread starts a call, some thread runs its next
section, or the world outside changes the state; `cond` restricts the
states in which sections may run.

# The rules

`Safe t c h Q` is a thread's proof: whenever the shared invariant holds
and the thread's own events so far are `h`, its next section keeps the
invariant and logs only events of its own, and so on to the end, where
`Q` holds of the result and the own events. What a thread knows about
itself is a fact about its own events, which no other thread can
disturb; everything else belongs in the invariant. `Pool.Reach.safe`
puts the threads together. Where no such knowledge is needed, `Each R c`
says that every section of `c` is related by `R` (`Pool.Reach.each`).
-/
import Mathlib.Logic.Function.Basic
import GemOS.Lib.Wp

/-- Programs over states `σ`, faults `ε`, notes `κ`, made of sections
labelled `L` that log events `E`. -/
inductive Conc (σ ε κ L E α : Type) : Type 1
  | ret (a : α)
  | sec {β : Type} (lbl : L) (x : Prog σ ε κ β) (ev : β → List E)
      (k : β → Conc σ ε κ L E α)

namespace Conc

variable {σ ε κ L E α β : Type}

/-- Sequencing. -/
protected def bind : Conc σ ε κ L E α → (α → Conc σ ε κ L E β) → Conc σ ε κ L E β
  | .ret a, f => f a
  | .sec lbl x ev k, f => .sec lbl x ev fun b => (k b).bind f

instance : Monad (Conc σ ε κ L E) where
  pure := .ret
  bind := Conc.bind

/-- A section as a program of its own. -/
def atomic (lbl : L) (x : Prog σ ε κ α) (ev : α → List E) : Conc σ ε κ L E α := .sec lbl x ev .ret

@[simp] theorem pure_eq (a : α) : (pure a : Conc σ ε κ L E α) = .ret a := rfl

@[simp] theorem ret_bind (a : α) (f : α → Conc σ ε κ L E β) : (Conc.ret a >>= f) = f a := rfl

@[simp] theorem sec_bind {γ : Type} (lbl : L) (x : Prog σ ε κ γ)
    (ev : γ → List E) (k : γ → Conc σ ε κ L E α) (f : α → Conc σ ε κ L E β) :
    (Conc.sec lbl x ev k >>= f) = .sec lbl x ev fun b => k b >>= f := rfl

-- ======== alone

/-- The program run without interruption. -/
def alone : Conc σ ε κ L E α → Prog σ ε κ α
  | .ret a => pure a
  | .sec _ x _ k => x >>= fun b => (k b).alone

@[simp] theorem alone_ret (a : α) : (Conc.ret a : Conc σ ε κ L E α).alone = pure a := rfl

@[simp] theorem alone_atomic (lbl : L) (x : Prog σ ε κ α)
    (ev : α → List E) : (atomic lbl x ev).alone = x := by
  show (x >>= fun b => pure b) = x
  exact bind_pure x

@[simp] theorem alone_bind (c : Conc σ ε κ L E α) (f : α → Conc σ ε κ L E β) :
    (c >>= f).alone = c.alone >>= fun a => (f a).alone := by
  induction c with
  | ret a =>
    show (f a).alone = _
    rw [alone_ret, pure_bind]
  | sec lbl x ev k ih =>
    show (x >>= fun b => (k b >>= f).alone) = (x >>= fun b => (k b).alone) >>= _
    rw [bind_assoc]
    exact congrArg _ (funext ih)

-- ======== solo

/-- The program run without interruption, its events as notes: each
stands with the state its section has left. -/
def solo : Conc σ ε κ L E α → Prog σ ε E α
  | .ret a => pure a
  | .sec _ x ev k => Prog.relabel x ev >>= fun b => (k b).solo

@[simp] theorem solo_ret (a : α) : (Conc.ret a : Conc σ ε κ L E α).solo = pure a := rfl

@[simp] theorem solo_atomic (lbl : L) (x : Prog σ ε κ α)
    (ev : α → List E) : (atomic lbl x ev).solo = Prog.relabel x ev := by
  show (Prog.relabel x ev >>= fun b => pure b) = _
  exact bind_pure _

@[simp] theorem solo_bind (c : Conc σ ε κ L E α) (f : α → Conc σ ε κ L E β) :
    (c >>= f).solo = c.solo >>= fun a => (f a).solo := by
  induction c with
  | ret a =>
    show (f a).solo = _
    rw [solo_ret, pure_bind]
  | sec lbl x ev k ih =>
    show (Prog.relabel x ev >>= fun b => (k b >>= f).solo)
      = (Prog.relabel x ev >>= fun b => (k b).solo) >>= _
    rw [bind_assoc]
    exact congrArg _ (funext ih)

variable {lbl : L} {x : Prog σ ε κ α} {ev : α → List E} {f : α → Conc σ ε κ L E β}

/-- A section, its events and the rest of the program. -/
theorem atomic_bind_ok {s s' : σ} {b : β} {n : Prog.Notes E σ}
    (h : (atomic lbl x ev >>= f).solo s = .ok (b, s', n)) :
    ∃ a s1 m n', x s = .ok (a, s1, m) ∧ (f a).solo s1 = .ok (b, s', n')
      ∧ n = (ev a).map (·, s1) ++ n' := by
  rw [solo_bind, solo_atomic] at h
  obtain ⟨a, s1, t1, t2, hx, hf, rfl⟩ := Prog.bind_ok h
  obtain ⟨rfl, m, hx⟩ := Prog.relabel_ok hx
  exact ⟨a, s1, m, t2, hx, hf, rfl⟩

variable {a : α} {c : Conc σ ε κ L E α} {s s' : σ}

/-- Up to its notes, a run of `alone` is one of `solo`. -/
theorem solo_of_alone {n : Prog.Notes κ σ} (h : c.alone s = .ok (a, s', n)) :
    ∃ t, c.solo s = .ok (a, s', t) := by
  induction c generalizing s n with
  | ret b =>
    cases h
    exact ⟨[], rfl⟩
  | sec lbl x ev k ih =>
    obtain ⟨b, s1, n1, n2, hx, hk, -⟩ := Prog.bind_ok h
    obtain ⟨t2, hk⟩ := ih b hk
    exact ⟨_, Prog.ok_bind (Prog.relabel_run hx) hk⟩

/-- Up to its notes, a run of `solo` is one of `alone`. -/
theorem alone_of_solo {t : Prog.Notes E σ} (h : c.solo s = .ok (a, s', t)) :
    ∃ n, c.alone s = .ok (a, s', n) := by
  induction c generalizing s t with
  | ret b =>
    cases h
    exact ⟨[], rfl⟩
  | sec lbl x ev k ih =>
    obtain ⟨b, s1, t1, t2, hx, hk, -⟩ := Prog.bind_ok h
    obtain ⟨-, n1, hx⟩ := Prog.relabel_ok hx
    obtain ⟨n2, hk⟩ := ih b hk
    exact ⟨_, Prog.ok_bind hx hk⟩

-- ======== preconditions

section wpe

variable {F : ε → Prop} {P : E → Prop} {Q M : α → σ → Prop}
  {R : β → σ → Prop}

/-- From `s`, the program without interruption returns with `Q` or faults
with `F`, and its events satisfy `P`. -/
def wpe (F : ε → Prop) (P : E → Prop) : Conc σ ε κ L E α → (α → σ → Prop) → σ → Prop
  | .ret a, Q, s => Q a s
  | .sec _ x ev k, Q, s => Prog.wp F x (fun b s' => (∀ e ∈ ev b, P e) ∧ wpe F P (k b) Q s') s

theorem wpe.total (h : wpe (fun _ => False) P c Q s) :
    ∃ a s' n, c.solo s = .ok (a, s', n) ∧ Q a s' ∧ ∀ m ∈ n, P m.1 := by
  induction c generalizing s with
  | ret a => exact ⟨a, s, [], rfl, h, nofun⟩
  | sec lbl x ev k ih =>
    obtain ⟨b, s1, m, hx, hev, hk⟩ := Prog.wp.total h
    obtain ⟨a, s', n, hrun, hQ, hn⟩ := ih b hk
    refine ⟨a, s', _, Prog.ok_bind (Prog.relabel_run hx) hrun, hQ, fun e he => ?_⟩
    rcases List.mem_append.mp he with he | he
    · obtain ⟨e', he', rfl⟩ := List.mem_map.mp he
      exact hev e' he'
    · exact hn e he

theorem wpe.bind (hc : wpe F P c M s) (hf : ∀ a s', M a s' → wpe F P (f a) R s') :
    wpe F P (c >>= f) R s := by
  induction c generalizing s with
  | ret a => exact hf a s hc
  | sec lbl x ev k ih => exact Prog.wp.mono hc fun b s' h => ⟨h.1, ih b h.2⟩

/-- A section whose run is known. -/
theorem wpe.run {m : Prog.Notes κ σ}
    (hx : x s = .ok (a, s', m)) (hev : ∀ e ∈ ev a, P e) (hf : wpe F P (f a) R s') :
    wpe F P (atomic lbl x ev >>= f) R s :=
  Prog.wp.of_ok hx ⟨hev, hf⟩

end wpe

-- ======== own proof

section safe

variable {τ : Type} [DecidableEq τ] (owner : E → τ)
  (cond : τ → L → σ → List E → Prop) (inv : σ → List E → Prop)

/-- The events of one thread. -/
def mine (t : τ) (log : List E) : List E := log.filter fun e => owner e = t

/-- A thread's proof (module comment). -/
def Safe (t : τ) : Conc σ ε κ L E α → List E → (α → List E → Prop) → Prop
  | .ret a, h, Q => Q a h
  | .sec lbl x ev k, h, Q => ∀ s log, mine owner t log = h → inv s log →
      cond t lbl s log → ∀ b s' n, x s = .ok (b, s', n) →
        (∀ e ∈ ev b, owner e = t) ∧ inv s' (log ++ ev b) ∧ Safe t (k b) (h ++ ev b) Q

variable {owner cond inv} {t : τ}

variable {Q : α → List E → Prop} {c : Conc σ ε κ L E α} {h evs : List E}

theorem Safe.mono {Q' : α → List E → Prop} (hc : Safe owner cond inv t c h Q)
    (hQ : ∀ a h', Q a h' → Q' a h') : Safe owner cond inv t c h Q' := by
  induction c generalizing h with
  | ret a => exact hQ a h hc
  | sec lbl x ev k ih =>
    intro s log hmine hI hC b s' n hx
    obtain ⟨hown, hI', hk⟩ := hc s log hmine hI hC b s' n hx
    exact ⟨hown, hI', ih b hk⟩

theorem Safe.bind {Q : β → List E → Prop}
    (hc : Safe owner cond inv t c h fun a h' => Safe owner cond inv t (f a) h' Q) :
    Safe owner cond inv t (c >>= f) h Q := by
  induction c generalizing h with
  | ret a => exact hc
  | sec lbl x ev k ih =>
    intro s log hmine hI hC b s' n hx
    obtain ⟨hown, hI', hk⟩ := hc s log hmine hI hC b s' n hx
    exact ⟨hown, hI', ih b hk⟩

theorem Safe.atomic (hx : ∀ s log, mine owner t log = h → inv s log → cond t lbl s log →
      ∀ a s' n, x s = .ok (a, s', n) → (∀ e ∈ ev a, owner e = t)
        ∧ inv s' (log ++ ev a) ∧ Q a (h ++ ev a)) :
    Safe owner cond inv t (Conc.atomic lbl x ev) h Q := hx

theorem mine_append (t : τ) (log evs : List E) :
    mine owner t (log ++ evs) = mine owner t log ++ mine owner t evs :=
  List.filter_append ..

theorem mine_own (h : ∀ e ∈ evs, owner e = t) : mine owner t evs = evs :=
  List.filter_eq_self.mpr fun e he => decide_eq_true (h e he)

theorem mine_other {t' : τ} (h : ∀ e ∈ evs, owner e = t) (ht : t' ≠ t) :
    mine owner t' evs = [] := by
  refine List.filter_eq_nil_iff.mpr fun e he => ?_
  rw [h e he, decide_eq_true_iff]
  exact fun heq => ht heq.symm

end safe

-- ======== section by section

section each

variable (R : σ → σ → List E → Prop)

/-- Every section that runs, whatever the state, is related by `R` to the
events it logs. -/
def Each : Conc σ ε κ L E α → Prop
  | .ret _ => True
  | .sec _ x ev k => ∀ s b s' n, x s = .ok (b, s', n) → R s s' (ev b) ∧ Each (k b)

variable {R}

theorem Each.bind {c : Conc σ ε κ L E α} (hc : Each R c)
    (hf : ∀ a, Each R (f a)) : Each R (c >>= f) := by
  induction c with
  | ret a => exact hf a
  | sec lbl x ev k ih =>
    intro s b s' n hx
    obtain ⟨hR, hk⟩ := hc s b s' n hx
    exact ⟨hR, ih b hk⟩

theorem Each.atomic
    (h : ∀ s a s' n, x s = .ok (a, s', n) → R s s' (ev a)) : Each R (Conc.atomic lbl x ev) :=
  fun s a s' n hx => ⟨h s a s' n hx, trivial⟩

end each

-- ======== traces

section traced

variable (P : List E → E → Prop)

/-- Every event of the log satisfies `P` together with what was logged
before it. -/
def Traced (log : List E) : Prop := ∀ a e b, log = a ++ e :: b → P a e

variable {P}

theorem Traced.nil : Traced P [] := by
  intro a e b h
  exact absurd h (by simp)

variable {log : List E}

theorem Traced.snoc {e : E} (h : Traced P log) (he : P log e) : Traced P (log ++ [e]) := by
  intro a e' b hab
  rcases List.eq_nil_or_concat b with rfl | ⟨b', x, rfl⟩
  · obtain ⟨rfl, hx⟩ := List.append_inj' hab rfl
    cases hx
    exact he
  · rw [List.concat_eq_append, ← List.cons_append, ← List.append_assoc] at hab
    exact h a e' b' (List.append_inj' hab rfl).1

theorem Traced.of_append {a b : List E} (h : Traced P (a ++ b)) : Traced P a := by
  rintro x e y rfl
  exact h x e (y ++ b) (by simp)

/-- Events about which `P` says nothing. -/
theorem Traced.append {evs : List E} (h : Traced P log)
    (he : ∀ a, ∀ e ∈ evs, P a e) : Traced P (log ++ evs) := by
  induction evs generalizing log with
  | nil => rwa [List.append_nil]
  | cons e evs ih =>
    rw [← List.singleton_append, ← List.append_assoc]
    refine ih (h.snoc (he _ e (List.mem_cons_self ..))) fun a e' he' => ?_
    exact he a e' (List.mem_cons_of_mem _ he')

end traced

end Conc

-- ======== pools

/-- A state, the events so far, each with the state its section has left,
and the programs of the threads. -/
structure Pool (σ ε κ L E τ : Type) : Type 1 where
  state : σ
  notes : List (E × σ)
  threads : τ → Conc σ ε κ L E Unit

namespace Pool

variable {σ ε κ L E τ ι : Type} [DecidableEq τ]

/-- The common log. -/
def log (w : Pool σ ε κ L E τ) : List E := w.notes.map Prod.fst

/-- No thread has started yet. -/
def idle (s : σ) : Pool σ ε κ L E τ := ⟨s, [], fun _ => .ret ()⟩

section reach

variable (init : Pool σ ε κ L E τ → Prop) (world : σ → σ → Prop)
  (calls : τ → ι → Conc σ ε κ L E Unit) (cond : τ → L → σ → List E → Prop)

/-- The pools reachable when idle threads may start any call. -/
inductive Reach : Pool σ ε κ L E τ → Prop
  | start {w : Pool σ ε κ L E τ} : init w → Reach w
  | call {w : Pool σ ε κ L E τ} (t : τ) (i : ι) :
      Reach w → w.threads t = .ret () →
      Reach { w with threads := Function.update w.threads t (calls t i) }
  | step {w : Pool σ ε κ L E τ} (t : τ) {β : Type} {lbl : L}
      {x : Prog σ ε κ β} {ev : β → List E} {k : β → Conc σ ε κ L E Unit}
      {b : β} {s' : σ} {n : List (κ × σ)} :
      Reach w → w.threads t = .sec lbl x ev k →
      cond t lbl w.state w.log → x w.state = .ok (b, s', n) →
      Reach ⟨s', w.notes ++ (ev b).map (·, s'), Function.update w.threads t (k b)⟩
  | world {w : Pool σ ε κ L E τ} {s' : σ} :
      Reach w → world w.state s' → Reach { w with state := s' }

end reach

variable {init : Pool σ ε κ L E τ → Prop} {world : σ → σ → Prop}
  {calls : τ → ι → Conc σ ε κ L E Unit} {cond : τ → L → σ → List E → Prop}

variable {w w' : Pool σ ε κ L E τ}

/-- Induction with an invariant `I` of the pool and a property `T` of each
thread, which the sections of the others keep. -/
theorem Reach.induct {I : σ → List (E × σ) → Prop}
    {T : τ → Conc σ ε κ L E Unit → List (E × σ) → Prop}
    (hinit : ∀ w, init w → I w.state w.notes ∧ ∀ t, T t (w.threads t) w.notes)
    (hcalls : ∀ t i n, T t (.ret ()) n → T t (calls t i) n)
    (hworld : ∀ s s' n, world s s' → I s n → I s' n)
    (hstep : ∀ t s n (β : Type) lbl (x : Prog σ ε κ β) ev k b s' m, I s n →
      T t (.sec lbl x ev k) n → cond t lbl s (n.map Prod.fst) → x s = .ok (b, s', m) →
      I s' (n ++ (ev b).map (·, s')) ∧ T t (k b) (n ++ (ev b).map (·, s'))
        ∧ ∀ u c, u ≠ t → T u c n → T u c (n ++ (ev b).map (·, s')))
    (hr : Reach init world calls cond w) : I w.state w.notes ∧ ∀ t, T t (w.threads t) w.notes := by
  induction hr with
  | start h => exact hinit _ h
  | @call w t i _ hret ih =>
    refine ⟨ih.1, fun u => ?_⟩
    show T u (Function.update w.threads t _ u) w.notes
    by_cases hu : u = t
    · subst hu
      rw [Function.update_self]
      exact hcalls u i _ (hret ▸ ih.2 u)
    · rw [Function.update_of_ne hu]
      exact ih.2 u
  | @step w t β lbl x ev k b s' m _ hth hC hx ih =>
    have hsec := ih.2 t
    rw [hth] at hsec
    obtain ⟨hI, hk, hothers⟩ := hstep t _ _ β lbl x ev k b s' m ih.1 hsec hC hx
    refine ⟨hI, fun u => ?_⟩
    show T u (Function.update w.threads t _ u) _
    by_cases hu : u = t
    · subst hu
      rw [Function.update_self]
      exact hk
    · rw [Function.update_of_ne hu]
      exact hothers u _ hu (ih.2 u)
  | world _ hw ih => exact ⟨hworld _ _ _ hw ih.1, ih.2⟩

theorem log_append (n : List (E × σ)) (evs : List E) (s : σ) :
    (n ++ evs.map (·, s)).map Prod.fst = n.map Prod.fst ++ evs := by
  simp [Function.comp_def]

/-- Threads that are safe one by one are safe together: the invariant
holds in every pool reached. `idle` is what a thread knows of its own
events between two calls. -/
theorem Reach.safe (owner : E → τ) {inv : σ → List E → Prop} (idle : τ → List E → Prop)
    (hinit : ∀ w, init w → inv w.state w.log ∧ ∀ t, Conc.Safe owner cond inv t (w.threads t)
      (Conc.mine owner t w.log) fun _ => idle t)
    (hworld : ∀ s s' log, world s s' → inv s log → inv s' log)
    (hcalls : ∀ t i h, idle t h → Conc.Safe owner cond inv t (calls t i) h fun _ => idle t)
    (hr : Reach init world calls cond w) : inv w.state w.log := by
  refine (Reach.induct (I := fun s n => inv s (n.map Prod.fst))
    (T := fun t c n => Conc.Safe owner cond inv t c (Conc.mine owner t (n.map Prod.fst))
      fun _ => idle t) hinit (fun t i n h => hcalls t i _ h) (fun s s' n => hworld s s' _)
    (fun t s n β lbl x ev k b s' m hI hsec hC hx => ?_) hr).1
  obtain ⟨hown, hI', hk⟩ := hsec s _ rfl hI hC b s' m hx
  rw [log_append, Conc.mine_append, Conc.mine_own hown]
  refine ⟨hI', hk, fun u c hu hc => ?_⟩
  rw [Conc.mine_append, Conc.mine_other hown hu, List.append_nil]
  exact hc

/-- What every section keeps holds in every pool reached. -/
theorem Reach.each {R : σ → σ → List E → Prop} {I : σ → List (E × σ) → Prop}
    (hinit : ∀ w, init w → I w.state w.notes ∧ ∀ t, Conc.Each R (w.threads t))
    (hcalls : ∀ t i, Conc.Each R (calls t i)) (hworld : ∀ s s' n, world s s' → I s n → I s' n)
    (hstep : ∀ s s' evs n, R s s' evs → I s n → I s' (n ++ evs.map (·, s')))
    (hr : Reach init world calls cond w) : I w.state w.notes ∧ ∀ t, Conc.Each R (w.threads t) := by
  refine Reach.induct (T := fun _ c _ => Conc.Each R c) hinit (fun t i _ _ => hcalls t i) hworld
    (fun t s n β lbl x ev k b s' m hI hsec _ hx => ?_) hr
  obtain ⟨hR, hk⟩ := hsec s b s' m hx
  exact ⟨hstep _ _ _ _ hR hI, hk, fun _ _ _ hc => hc⟩

-- ======== schedules

/-- One section of thread `t`, if it has one, the check `ok` lets it run
and it does not fault. -/
def next (ok : τ → L → σ → List E → Bool) (w : Pool σ ε κ L E τ) (t : τ) :
    Option (Pool σ ε κ L E τ) :=
  match w.threads t with
  | .ret _ => none
  | .sec lbl x ev k =>
    if ok t lbl w.state w.log then
      match x w.state with
      | .error _ => none
      | .ok (b, s', _) =>
        some ⟨s', w.notes ++ (ev b).map (·, s'), Function.update w.threads t (k b)⟩
    else none

/-- The sections of the threads of a schedule, in its order. -/
def run (ok : τ → L → σ → List E → Bool) (w : Pool σ ε κ L E τ) : List τ → Option (Pool σ ε κ L E τ)
  | [] => some w
  | t :: rest =>
    match w.next ok t with
    | none => none
    | some w' => w'.run ok rest

variable {ok : τ → L → σ → List E → Bool}

theorem Reach.next {t : τ} (hok : ∀ t lbl s log, ok t lbl s log = true → cond t lbl s log)
    (hr : Reach init world calls cond w) (h : w.next ok t = some w') :
    Reach init world calls cond w' := by
  unfold Pool.next at h
  cases hth : w.threads t with
  | ret u => rw [hth] at h; cases h
  | sec lbl x ev k =>
    rw [hth] at h
    dsimp only at h
    split at h
    · next hcheck =>
      cases hx : x w.state with
      | error e => rw [hx] at h; cases h
      | ok r =>
        obtain ⟨b, s', n⟩ := r
        rw [hx] at h
        cases h
        exact .step t hr hth (hok _ _ _ _ hcheck) hx
    · cases h

/-- A schedule whose checks imply the condition is a run. -/
theorem Reach.run {ts : List τ} (hr : Reach init world calls cond w)
    (hok : ∀ t lbl s log, ok t lbl s log = true → cond t lbl s log)
    (h : w.run ok ts = some w') : Reach init world calls cond w' := by
  induction ts generalizing w with
  | nil =>
    cases h
    exact hr
  | cons t rest ih =>
    unfold Pool.run at h
    cases hn : w.next ok t with
    | none => rw [hn] at h; cases h
    | some w1 =>
      rw [hn] at h
      exact ih (hr.next hok hn) h

end Pool
