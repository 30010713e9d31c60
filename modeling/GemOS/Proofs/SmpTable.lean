/-
The process table under any interleaving.

# What the tree sees of a move

The process tree does not look at CPUs, at `p->lock` or at the difference
between RUNNABLE, RUNNING and SLEEPING. `Shift` forgets them: most moves
change nothing (`rest`) or only the place of one process (`walk`); what is
left is `wait_lock` taken and given back, the two ends of `allocproc`, the
two ends of `kfork`, a child given to init, an exit and a reaping.
`Move.shift` says that every move is one of these.

# The invariant

`Tree` says what the slots and the places of the processes say about each
other. Only a live process is a parent, an UNUSED slot has none, and every
process but init whose `kfork` is over has one. The slot of an unfinished
`kfork` is USED, and its own. `reparent` has no children in the slots it is
past, init does not exit, and only the holder of `wait_lock` is in a
section under it: this is why the tree does not change while a process
exits.
-/
import GemOS.Proofs.SmpPlaces

namespace GemOS

open Function Prog

-- ======== phases

inductive Phase
  | unused | used | live | zombie
  deriving DecidableEq

def ProcState.phase : ProcState → Phase
  | .unused => .unused
  | .used => .used
  | .sleeping | .runnable | .running => .live
  | .zombie => .zombie

/-- Two contents of a slot at the same place in the tree. -/
structure Proc.Same (x y : Proc) : Prop where
  phase : y.state.phase = x.state.phase
  parent : y.parent = x.parent
  pid : y.pid = x.pid
  xstate : y.xstate = x.xstate

variable {x : Proc} {a : Pc}

theorem Proc.Same.rfl : x.Same x := ⟨Eq.refl _, Eq.refl _, Eq.refl _, Eq.refl _⟩

theorem Proc.Alike.same {y : Proc} (h : x.Alike y) : x.Same y :=
  ⟨congrArg _ h.state, h.parent, h.pid, h.xstate⟩

theorem Proc.same_woken (x : Proc) : x.Same x.woken := by
  refine ⟨?_, Eq.refl _, Eq.refl _, Eq.refl _⟩
  grind [Proc.woken, ProcState.phase]

theorem Proc.same_wokenIf (x : Proc) {b : Prop} [Decidable b] :
    x.Same (if b then x.woken else x) := by
  split
  · exact x.same_woken
  · exact .rfl

theorem Proc.same_marked (x : Proc) : x.Same x.marked :=
  ⟨x.same_woken.phase, Eq.refl _, Eq.refl _, Eq.refl _⟩

/-- A running process is still alive when it has yielded. -/
theorem Proc.same_yielded (h : x.state = .running) : x.Same x.yielded := by
  unfold Proc.yielded
  constructor <;> grind [ProcState.phase]

-- ======== places

/-- The slot that a `kfork` works on, and its pid. -/
def Pc.child : Pc → Option (ProcId × Int)
  | .adopt np pid => some (np, pid)
  | .ready np pid => some (np, pid)
  | _ => none

/-- Between `acquire(&wait_lock)` and `release(&wait_lock)`. -/
def Pc.holds : Pc → Bool
  | .reparent .. | .reparentWake .. | .exitWake .. | .exitEnd _
  | .waitScan .. | .waitTest .. | .waitSleep .. => true
  | _ => false

/-- In `kexit` with `wait_lock`. -/
def Pc.leaving : Pc → Bool
  | .reparent .. | .reparentWake .. | .exitWake .. | .exitEnd _ => true
  | _ => false

/-- In `kexit`. -/
def Pc.exits : Pc → Bool
  | .exit _ | .dead => true
  | a => a.leaving

/-- How many slots `reparent` is done with. -/
def Pc.past : Pc → Nat
  | .reparent _ i => i
  | .reparentWake _ i _ => i + 1
  | .exitWake .. | .exitEnd _ | .dead => nproc
  | _ => 0

attribute [grind =] ProcState.phase Pc.child Pc.holds Pc.leaving Pc.exits
  Pc.past

theorem Pc.past_eq_zero (h : a.exits = false) : a.past = 0 := by
  cases a <;> grind

/-- `kexit` holds `wait_lock` from `reparent` on. -/
theorem Pc.holds_of_leaving (h : a.leaving) : a.holds := by
  cases a <;> grind

/-- Events that say nothing about the tree. -/
def SmpEvent.silent {γ : Type} : SmpEvent γ → Bool
  | .forked .. | .exited .. | .reaped .. | .notCopied .. => false
  | _ => true

namespace Smp

variable {γ : Type}

/-- A process goes to `a` without a change of the tree. -/
structure Walk (s : Smp γ) (p : ProcId) (a : Pc) : Prop where
  child : a.child = none
  noChild : (s.pc p).child = none
  holds : a.holds = (s.pc p).holds
  leaving : a.leaving = (s.pc p).leaving
  exits : a.exits → (s.pc p).exits ∨ p ≠ s.initproc
  past : ∀ q : ProcId, q.val < a.past → q.val < (s.pc p).past ∨ (s.proc q).parent ≠ some p

section places

variable {s : Smp γ} {e : Option (SmpEvent γ)} {p q : ProcId} {a : Pc}

/-- `reparent` looks at every slot: what it is past has another parent. -/
theorem Goto.walk (h : Goto s p e a) : Walk s p a := by
  cases h <;> constructor <;> grind

/-- Only `getppid` leaves an event on the way. -/
theorem Goto.silent (h : Goto s p e a) : ∀ x ∈ e, x.silent := by
  cases h <;> grind [SmpEvent.silent]

variable {k : SmpCall}

theorem Begins.walk (hpc : s.pc p = .user) (h : Begins s p k e a) : Walk s p a := by
  cases h <;> constructor <;> grind

theorem Begins.silent (h : Begins s p k e a) : ∀ x ∈ e, x.silent := by
  cases h <;> grind [SmpEvent.silent]

theorem WakeStep.walk (h : WakeStep q (s.pc p) a) : Walk s p a := by
  generalize hpc : s.pc p = b at h
  cases h <;> constructor <;> grind

/-- `kwait` gives up with `wait_lock` held. -/
theorem WaitEnds.facts (h : WaitEnds s p e) : (s.pc p).holds ∧ ¬ (s.pc p).leaving
      ∧ ∀ x ∈ e, ∃ pp, x = .notCopied p pp ∧ (s.proc pp).parent = some p
        ∧ (s.proc pp).state = .zombie := by
  cases h <;> grind

end places

-- ======== shifts

/-- The tree is the same in both states. -/
def Frame (s s' : Smp γ) : Prop := ∀ q, (s.proc q).Same (s'.proc q)

/-- At most the place of one process and `wait_lock` change. -/
inductive Calm (s s' : Smp γ) : Option (SmpEvent γ) → Prop
  | rest {e} : (∀ x ∈ e, x.silent) → Frame s s' →
      (∀ r, s'.pc r = s.pc r) → s'.waitLock = s.waitLock → Calm s s' e
  | walk {e p a} : (∀ x ∈ e, x.silent) → Frame s s' →
      (s.proc p).state = .running → Walk s p a →
      (∀ r, s'.pc r = if r = p then a else s.pc r) →
      s'.waitLock = s.waitLock → Calm s s' e
  | take {p a} : Frame s s' → (s.proc p).state = .running →
      TakesWaitLock (s.pc p) a → s.waitLock = none →
      (∀ r, s'.pc r = if r = p then a else s.pc r) →
      s'.waitLock = some p → Calm s s' none
  /-- `kwait` gives `wait_lock` back. -/
  | release {e p a} : Frame s s' → (s.pc p).holds → ¬ (s.pc p).leaving →
      a = .user ∨ (∃ x y, a = .wait x y) →
      (∀ x ∈ e, ∃ pp, x = .notCopied p pp ∧ (s.proc pp).parent = some p
        ∧ (s.proc pp).state = .zombie) →
      (∀ r, s'.pc r = if r = p then a else s.pc r) →
      s'.waitLock = none → Calm s s' e

/-- A part of `kfork`. -/
inductive Forking (s s' : Smp γ) : Option (SmpEvent γ) → Prop
  /-- `allocproc` or `uvmcopy` fails. -/
  | fail {p np mem i} : s.pc p = .alloc mem i →
      (s.proc np).state = .unused →
      (∀ r, s'.proc r = if r = np then ((s.proc np).claimed s.nextpid).freed else s.proc r) →
      (∀ r, s'.pc r = if r = p then .user else if r = np then .user else s.pc r) →
      s'.waitLock = s.waitLock → Forking s s' (some (.claimed p np))
  | find {p np mem i y} : s.pc p = .alloc mem i →
      (s.proc np).state = .unused → ((s.proc np).claimed s.nextpid).Same y →
      (∀ r, s'.proc r = if r = np then y else s.proc r) →
      (∀ r, s'.pc r = if r = p then .adopt np s.nextpid
        else if r = np then .user else s.pc r) →
      s'.waitLock = s.waitLock → Forking s s' (some (.claimed p np))
  | adopt {p np pid} : (s.proc p).state = .running →
      s.pc p = .adopt np pid →
      (∀ r, s'.proc r = if r = np then { s.proc np with parent := some p } else s.proc r) →
      (∀ r, s'.pc r = if r = p then .ready np pid else s.pc r) →
      s'.waitLock = s.waitLock → Forking s s' none
  | ready {p np pid} : (s.proc p).state = .running →
      s.pc p = .ready np pid →
      (∀ r, s'.proc r = if r = np then { s.proc np with state := .runnable }
          else s.proc r) →
      (∀ r, s'.pc r = if r = p then .user else s.pc r) →
      s'.waitLock = s.waitLock → Forking s s' (some (.forked p np pid))

/-- A process leaves the tree, or gives a child to init before. -/
inductive Parting (s s' : Smp γ) : Option (SmpEvent γ) → Prop
  | give {p st} {pp : ProcId} : (s.proc p).state = .running →
      s.pc p = .reparent st pp.val → (s.proc pp).parent = some p →
      (∀ r, s'.proc r = if r = pp then { s.proc pp with parent := some s.initproc }
          else s.proc r) →
      (∀ r, s'.pc r = if r = p then .reparentWake st pp.val 0 else s.pc r) →
      s'.waitLock = s.waitLock → Parting s s' none
  | exit {p st} : (s.proc p).state = .running → s.pc p = .exitEnd st →
      (∀ r, s'.proc r = if r = p then { s.proc p with xstate := st, state := .zombie }
          else s.proc r) →
      (∀ r, s'.pc r = if r = p then .dead else s.pc r) →
      s'.waitLock = none → Parting s s' (some (.exited p (s.proc p).pid st))
  | reap {p addr copied hk} {pp : ProcId} :
      s.pc p = .waitScan addr copied hk pp.val →
      (s.proc pp).parent = some p → (s.proc pp).state = .zombie →
      (∀ r, s'.proc r = if r = pp then (s.proc pp).freed else s.proc r) →
      (∀ r, s'.pc r = if r = p then .user else s.pc r) →
      s'.waitLock = none →
      Parting s s' (some (.reaped p pp (s.proc pp).pid (s.proc pp).xstate))

inductive Shift (s s' : Smp γ) (e : Option (SmpEvent γ)) : Prop
  | calm (h : Calm s s' e)
  | forking (h : Forking s s' e)
  | parting (h : Parting s s' e)

variable {s s' : Smp γ} {e : Option (SmpEvent γ)} {p q np : ProcId} {a : Pc}

theorem Frame.rfl : Frame s s := fun _ => .rfl

/-- A calm step changes no slot of the tree. -/
theorem Calm.frame (h : Calm s s' e) : Frame s s' := by
  cases h <;> assumption

/-- One slot gets a content at the same place. -/
theorem Frame.update {y : Proc} (hproc : s'.proc = update s.proc q y)
    (hy : (s.proc q).Same y) : Frame s s' := by
  intro r
  rw [hproc, update_apply]
  split
  · next hr => exact hr ▸ hy
  · exact .rfl

section moves

variable [DecidableEq γ]

variable {op : SmpOp γ}

/-- Every move is a shift of the tree. -/
theorem Move.shift (h : Placed s) (hm : Move op s e s') : Shift s s' e := by
  have hrun {c : γ} {p : ProcId} (hon : On s c p) :
      (s.proc p).state = .running := (h.exec hon.mode).2.1
  have hslept {p : ProcId} (hp : (s.proc p).state = .running) :
      (s.proc p).Same { s.proc p with state := .sleeping } := by
    constructor <;> grind
  -- only the place of one process changes
  have hwalk {p : ProcId} {a b : Pc} (hb : s.pc p = b)
      (hchild : a.child = none ∧ b.child = none) (hholds : a.holds = b.holds)
      (hleaving : a.leaving = b.leaving) (hexits : a.exits = b.exits)
      (hpast : a.past = b.past) : Walk s p a := by
    constructor <;> grind
  have hquiet : ∀ x ∈ (none : Option (SmpEvent γ)), x.silent := by simp
  -- what is left of most moves
  have hcalm {e : Option (SmpEvent γ)} {s' : Smp γ} (he : ∀ x ∈ e, x.silent)
      (hf : Frame s s') (hpc : s'.pc = s.pc) (hw : s'.waitLock = s.waitLock) : Shift s s' e :=
    .calm (.rest he hf (congrFun hpc) hw)
  have hplace {e : Option (SmpEvent γ)} {s' : Smp γ} {p : ProcId} {a : Pc}
      (he : ∀ x ∈ e, x.silent) (hf : Frame s s')
      (hp : (s.proc p).state = .running) (ha : Walk s p a) (hpc : s'.pc = update s.pc p a)
      (hw : s'.waitLock = s.waitLock) : Shift s s' e :=
    .calm (.walk he hf hp ha (by simp [hpc, update_apply]) hw)
  cases hm with
  | stay => exact hcalm hquiet .rfl rfl rfl
  | scan level start i hmode => exact hcalm hquiet (fun _ => .rfl) rfl rfl
  | pick p hmode hfree hp =>
    refine hcalm (by grind [SmpEvent.silent]) (.update rfl ?_) rfl rfl
    constructor <;> grind [Proc.picked]
  | switchBack hmode => exact hcalm hquiet (fun _ => .rfl) rfl rfl
  | resume hmode hctx => exact hcalm hquiet (fun _ => .rfl) rfl rfl
  | tweak hf _ => exact hcalm hquiet (.update rfl hf.same) rfl rfl
  | wake q chan _ => exact hcalm hquiet (.update rfl (Proc.same_wokenIf _)) rfl rfl
  | yield hon hpc hfree => exact hcalm hquiet (.update rfl (Proc.same_yielded (hrun hon))) rfl rfl
  | sleep chan hon hpc hfree => exact hcalm hquiet (.update rfl (hslept (hrun hon))) rfl rfl
  | call _ hon hpc hk => exact hplace hk.silent (fun _ => .rfl) (hrun hon) (hk.walk hpc) rfl rfl
  | goto hon ha => exact hplace ha.silent (fun _ => .rfl) (hrun hon) ha.walk rfl rfl
  | forkFails hon hpc hfree hun =>
    refine .forking (.fail hpc hun (fun r => ?_) (fun r => ?_) rfl)
    · simp only [setPc, freeproc, updProc, claim, update_apply]
      grind
    · simp only [setPc, freeproc, updProc, claim, update_apply]
  | forkFinds tf root hon hpc hfree hun =>
    refine .forking (.find hpc hun ?_ (fun r => (congrFun (update_idem ..) r).trans
        (update_apply ..)) (fun r => ?_) rfl)
    · rw [claim_proc_self]
      exact ⟨rfl, rfl, rfl, rfl⟩
    · simp only [setPc, updProc, claim, update_apply]
  | adopt hon hpc hfree =>
    exact .forking (.adopt (hrun hon) hpc (update_apply _ _ _) (update_apply _ _ _) rfl)
  | ready hon hpc hfree =>
    exact .forking (.ready (hrun hon) hpc (update_apply _ _ _) (update_apply _ _ _) rfl)
  | takeWaitLock hon hpc hfree =>
    exact .calm (.take (fun _ => .rfl) (hrun hon) hpc hfree (update_apply _ _ _) rfl)
  | give hon hpc hpar =>
    exact .parting (.give (hrun hon) hpc hpar (update_apply _ _ _) (update_apply _ _ _) rfl)
  | wakeStep chan hon hpc hfree =>
    exact hplace hquiet (.update rfl (Proc.same_wokenIf _)) (hrun hon) hpc.walk rfl rfl
  | exit hon hpc hfree =>
    exact .parting (.exit (hrun hon) hpc (update_apply _ _ _) (update_apply _ _ _) rfl)
  | waitEnds hon hpc =>
    obtain ⟨hholds, hstay, he⟩ := hpc.facts
    exact .calm (.release (fun _ => .rfl) hholds hstay (.inl rfl) he (update_apply _ _ _) rfl)
  | reap hon hpc hpar hfree hz =>
    exact .parting (.reap hpc hpar hz (update_apply _ _ _) (update_apply _ _ _) rfl)
  | waitSleep hon hpc hfree =>
    exact .calm (.release (.update rfl (hslept (hrun hon)))
      (by rw [hpc]; rfl) (by rw [hpc]; intro h; cases h) (.inr ⟨_, _, rfl⟩) (by simp)
      (update_apply _ _ _) rfl)
  | mark hon hpc hfree hpid =>
    exact hplace (by grind [SmpEvent.silent]) (.update rfl (Proc.same_marked _)) (hrun hon)
      (hwalk (a := .user) hpc ⟨rfl, rfl⟩ rfl rfl rfl rfl) rfl rfl
  | ppidLock hon hpc hfree =>
    exact hplace hquiet (fun _ => .rfl) (hrun hon)
      (hwalk (a := .ppidRead) hpc ⟨rfl, rfl⟩ rfl rfl rfl rfl) rfl rfl
  | ppidEnd hon hpc =>
    exact hplace (by grind [SmpEvent.silent]) (fun _ => .rfl) (hrun hon)
      (hwalk (a := .user) hpc ⟨rfl, rfl⟩ rfl rfl rfl rfl) rfl rfl

/-- Nobody changes `initproc`. -/
theorem Move.initproc (hm : Move op s e s') : s'.initproc = s.initproc := by
  cases hm <;> rfl

end moves

-- ======== the tree

structure Tree (s : Smp γ) : Prop where
  /-- Between the two parts of `kfork` the slot stays USED. -/
  used : ∀ {p np pid}, (s.pc p).child = some (np, pid) →
    (s.proc np).state.phase = .used ∧ (s.proc np).pid = pid
  one : ∀ {p p' np pid pid'}, (s.pc p).child = some (np, pid) →
    (s.pc p').child = some (np, pid') → p = p'
  adopt : ∀ {p np pid}, s.pc p = .adopt np pid → (s.proc np).parent = none
  ready : ∀ {p np pid}, s.pc p = .ready np pid →
    (s.proc np).parent = some p
  init : (s.proc s.initproc).state.phase = .live
  unused : ∀ {q}, (s.proc q).state.phase = .unused → (s.proc q).parent = none
  live : ∀ {q r}, (s.proc q).parent = some r →
    (s.proc r).state.phase = .live
  parented : ∀ {q}, (s.proc q).state.phase = .live
    ∨ (s.proc q).state.phase = .zombie → q ≠ s.initproc → (s.proc q).parent ≠ none
  past : ∀ {q r : ProcId}, q.val < (s.pc r).past →
    (s.proc q).parent ≠ some r
  stays : (s.pc s.initproc).exits = false
  holds : ∀ {p}, (s.pc p).holds → s.waitLock = some p
  /-- A process in `kexit` with `wait_lock` is no zombie yet. -/
  leaving : ∀ {p}, (s.pc p).leaving → (s.proc p).state.phase = .live

variable {pid : Int}

section

variable (h : Tree s)

include h

/-- The slot of a `kfork` that is not over. -/
theorem Tree.used_of_adopt (hp : s.pc p = .adopt np pid) :
    (s.proc np).state.phase = .used ∧ (s.proc np).pid = pid :=
  h.used (p := p) (by rw [hp]; rfl)

theorem Tree.used_of_ready (hp : s.pc p = .ready np pid) :
    (s.proc np).state.phase = .used ∧ (s.proc np).pid = pid :=
  h.used (p := p) (by rw [hp]; rfl)

/-- Init does not exit. -/
theorem Tree.ne_init (hp : (s.pc p).exits) : p ≠ s.initproc := by
  rintro rfl
  rw [h.stays] at hp
  cases hp

/-- A slot that is not live is nobody's parent, and not init. -/
theorem Tree.not_live (hq : (s.proc q).state.phase ≠ .live) :
    q ≠ s.initproc ∧ ∀ r, (s.proc r).parent ≠ some q := by
  constructor
  · rintro rfl
    exact hq h.init
  · exact fun r hr => hq (h.live hr)

variable (hinit : s'.initproc = s.initproc)

include hinit

/-- One process goes to another place; what the locks ask for is left. -/
theorem Tree.place
    (hf : Frame s s') (hpc : ∀ r, s'.pc r = if r = p then a else s.pc r) (hchild : a.child = none)
    (hexits : a.exits → (s.pc p).exits ∨ p ≠ s.initproc)
    (hpast' : ∀ q : ProcId, q.val < a.past → q.val < (s.pc p).past ∨ (s.proc q).parent ≠ some p)
    (hheld : ∀ r, (s'.pc r).holds → s'.waitLock = some r)
    (hlives : a.leaving → (s.proc p).state.phase = .live) : Tree s' := by
  have hphase (q : ProcId) := (hf q).phase
  have hparent (q : ProcId) := (hf q).parent
  have hpid (q : ProcId) := (hf q).pid
  cases h
  clear hf
  constructor <;> grind

/-- Nobody moves. -/
theorem Tree.rest
    (hf : Frame s s') (hpc : ∀ r, s'.pc r = s.pc r) (hw : s'.waitLock = s.waitLock) : Tree s' := by
  have hphase (q : ProcId) := (hf q).phase
  have hparent (q : ProcId) := (hf q).parent
  have hpid (q : ProcId) := (hf q).pid
  cases h
  clear hf
  constructor <;> grind

/-- Steps that only go on in a call. -/
theorem Tree.calm (hs : Calm s s' e) : Tree s' := by
  cases hs with
  | rest _ hf hpc hw => exact h.rest hinit hf hpc hw
  | walk _ hf hrun ha hpc hw =>
    refine h.place hinit hf hpc ha.child ha.exits ha.past ?_ ?_
    · grind [h.holds, ha.holds]
    · grind [h.leaving, ha.leaving]
  | @take p a hf hrun ha hfree hpc hw =>
    generalize hold : s.pc p = b at ha
    have hnobody := @h.holds
    cases ha <;> refine h.place hinit hf hpc rfl ?_ ?_ ?_ ?_ <;> grind
  | release hf hold hstay ha _ hpc hw =>
    have hholds := @h.holds
    have hlock := h.holds hold
    refine h.place hinit hf hpc ?_ ?_ ?_ ?_ ?_ <;> grind

/-- `allocproc` or `uvmcopy` fails, or `kfork` has a slot. -/
theorem Tree.claim {y : Proc} {a : Pc}
    (hun : (s.proc np).state = .unused) (hynone : y.parent = none)
    (hproc : ∀ r, s'.proc r = if r = np then y else s.proc r)
    (hpc : ∀ r, s'.pc r = if r = p then a else if r = np then .user else s.pc r)
    (hw : s'.waitLock = s.waitLock) (ha : a = .user ∧ y.state = .unused
      ∨ ∃ pid, a = .adopt np pid ∧ y.state.phase = .used ∧ y.pid = pid) :
    Tree s' := by
  cases h
  constructor <;> grind

/-- `kfork` gives the new slot its parent. -/
theorem Tree.adopts (hs : Forking s s' none) : Tree s' := by
  rcases hs with - | - | @⟨p, np, pid, hrun, hp, hproc, hpc, hw⟩
  have hadopted := h.used_of_adopt hp
  -- no other `kfork` works on this slot
  have hown {r nq pid'} (hr : s.pc r = .adopt nq pid') (hq : nq = np) : r = p := by
    have hcr : (s.pc r).child = some (np, pid') := by rw [hr, hq]; rfl
    have hcp : (s.pc p).child = some (np, pid) := by rw [hp]; rfl
    exact h.one hcr hcp
  cases h
  constructor <;> grind

/-- The child becomes RUNNABLE. -/
theorem Tree.readies (hs : Forking s s' (some (.forked p np pid))) : Tree s' := by
  rcases hs with - | - | - | ⟨hrun, hp, hproc, hpc, hw⟩
  have hreadied := h.used_of_ready hp
  cases h
  constructor <;> grind

theorem Tree.forking (hs : Forking s s' e) : Tree s' := by
  cases hs with
  | fail hp hun hproc hpc hw => exact h.claim hinit hun rfl hproc hpc hw (.inl ⟨rfl, rfl⟩)
  | @find p np mem i y hp hun hy hproc hpc hw =>
    have hynone : y.parent = none := by
      rw [hy.parent]
      exact h.unused (by rw [hun]; rfl)
    exact h.claim hinit hun hynone hproc hpc hw (.inr ⟨_, rfl, hy.phase, hy.pid⟩)
  | adopt hrun hp hproc hpc hw => exact h.adopts hinit (.adopt hrun hp hproc hpc hw)
  | ready hrun hp hproc hpc hw => exact h.readies hinit (.ready hrun hp hproc hpc hw)

/-- `reparent` gives a child to init. -/
theorem Tree.gives (hs : Parting s s' none) : Tree s' := by
  obtain ⟨hrun, hp, hchild, hproc, hpc, hw⟩ := hs
  -- init has no child to give away
  have hzero := Pc.past_eq_zero h.stays
  cases h
  constructor <;> grind

/-- A process becomes a zombie, its children given away. -/
theorem Tree.exits {st : Int} (hs : Parting s s' (some (.exited p pid st))) : Tree s' := by
  obtain ⟨⟩ | ⟨hrun, hp, hproc, hpc, hw⟩ := hs
  cases h
  constructor <;> grind

/-- `kwait` empties the slot of a zombie. -/
theorem Tree.reaps {st : Int} (hs : Parting s s' (some (.reaped p q pid st))) : Tree s' := by
  obtain ⟨⟩ | ⟨⟩ | ⟨hp, hchild, hz, hproc, hpc, hw⟩ := hs
  cases h
  constructor <;> grind [Proc.freed, Proc.cleared]

theorem Tree.parting (hs : Parting s s' e) : Tree s' := by
  cases hs with
  | give hrun hp hchild hproc hpc hw => exact h.gives hinit (.give hrun hp hchild hproc hpc hw)
  | exit hrun hp hproc hpc hw => exact h.exits hinit (.exit hrun hp hproc hpc hw)
  | reap hp hchild hz hproc hpc hw => exact h.reaps hinit (.reap hp hchild hz hproc hpc hw)

/-- The tree is kept by every shift. -/
theorem Tree.shift (hs : Shift s s' e) : Tree s' := by
  rcases hs with hs | hs | hs
  · exact h.calm hinit hs
  · exact h.forking hinit hs
  · exact h.parting hinit hs

end

-- ======== runs

theorem boot_proc_of_ne (tf root : Nat) (h : p ≠ 0) :
    (boot tf root : Smp γ).proc p = Proc.initial := by
  unfold boot
  dsimp only
  rw [update_of_ne h]

theorem placed_boot (tf root : Nat) : Placed (boot tf root : Smp γ) := by
  refine ⟨fun _ => rfl, ?_, ?_, ?_, fun {p} hp => ?_⟩
  iterate 3
    intros
    contradiction
  by_cases h0 : p = 0
  · subst h0
    cases hp
  · rw [boot_proc_of_ne tf root h0] at hp
    cases hp

/-- At boot there is one process. -/
theorem tree_boot (tf root : Nat) : Tree (boot tf root : Smp γ) := by
  have hparent (q : ProcId) : ((boot tf root : Smp γ).proc q).parent = none := by
    by_cases hq : q = 0
    · subst hq
      rfl
    · rw [boot_proc_of_ne tf root hq]
      rfl
  have hphase {q : ProcId} (hq : q ≠ 0) :
      ((boot tf root : Smp γ).proc q).state.phase = .unused := by
    rw [boot_proc_of_ne tf root hq]
    rfl
  have hinit : (boot tf root : Smp γ).initproc = 0 := rfl
  refine ⟨nofun, nofun, nofun, nofun, rfl, ?_, ?_, ?_, nofun, rfl, nofun, nofun⟩
  all_goals grind

variable [DecidableEq γ]

/-- What holds after boot and is kept by every move holds in every state of
a run. -/
theorem Runs.invariant {cond : SmpOp γ → Prop} {I : Notes (SmpEvent γ) (Smp γ) → Smp γ → Prop}
    (hboot : ∀ tf root, I [] (boot tf root))
    (hmove : ∀ op n s e s', cond op → I n s → Placed s → Tree s →
      Move op s e s' → I (n ++ (e.map fun e => (e, s)).toList) s')
    {n : Notes (SmpEvent γ) (Smp γ)} (hr : Runs cond n s) :
    (Placed s ∧ Tree s) ∧ I n s := by
  refine Course.invariant (I := fun n s => (Placed s ∧ Tree s) ∧ I n s)
    ?_ ?_ (fun _ _ _ _ hw => hw.elim) hr
  · rintro _ ⟨tf, root, rfl⟩
    exact ⟨⟨placed_boot tf root, tree_boot tf root⟩, hboot tf root⟩
  · rintro op n t s s' ⟨⟨hp, ht⟩, hI⟩ hc hrun
    obtain ⟨e, rfl, hm⟩ := prog_move hrun
    refine ⟨⟨hp.step (fun hpc => ?_) hm, ht.shift hm.initproc (hm.shift hp)⟩,
      hmove op n s e s' hc hI hp ht hm⟩
    -- the slot at the end of `kfork` is USED
    have hused := (ht.used_of_ready hpc).1
    intro hrun
    rw [hrun] at hused
    cases hused

/-- A process runs on at most one CPU: when its lock is free it is RUNNING
if exactly one CPU has it, and no CPU has it otherwise. Only RUNNABLE
processes are picked. -/
theorem process_on_one_cpu {n : Notes (SmpEvent γ) (Smp γ)} {s : Smp γ}
    (hr : Runs (fun _ => True) n s) :
    (∀ p, s.plock p = none → ((s.proc p).state = .running ↔ ∃! c, s.cproc c = some p)
        ∧ ((s.proc p).state ≠ .running → ∀ c, s.cproc c ≠ some p))
      ∧ ∀ c p t, (.picked c p, t) ∈ n → (t.proc p).state = .runnable := by
  have hinv := Runs.invariant (I := fun n _ => ∀ c p t,
    (.picked c p, t) ∈ n → (t.proc p).state = .runnable) (fun _ _ => nofun) ?_ hr
  · obtain ⟨⟨hp, -⟩, hpicks⟩ := hinv
    refine ⟨fun p hfree => ?_, hpicks⟩
    -- with the lock free, a CPU that has the process is in it
    have hrun {c : γ} (hc : s.cproc c = some p) : (s.proc p).state = .running := by
      rcases hp.mode_of_cproc hc with hm | hm
      · exact (hp.exec hm).2.1
      · exact absurd hm (hp.not_back hfree c)
    refine ⟨⟨fun h => ?_, fun ⟨c, hc, _⟩ => hrun hc⟩, fun hne c hc => hne (hrun hc)⟩
    obtain ⟨c, hm⟩ := hp.somewhere h
    exact ⟨c, (hp.exec hm).1, fun c' hc' => hp.alone hc' (hp.exec hm).1⟩
  · intro op n s e s' _ hn _ _ hm c p t ht
    rcases List.mem_append.mp ht with ht | ht
    · exact hn c p t ht
    · obtain ⟨e, rfl, heq⟩ := Option.map_eq_some_iff.mp (Option.mem_toList.mp ht)
      cases heq
      cases hm with
      | pick _ _ _ hrunnable => exact hrunnable
      | call _ _ _ hk => cases hk
      | goto _ ha => cases ha
      | waitEnds _ hw => cases hw

/-- The first process forks, and another CPU takes the child. -/
def forkAndRun : List (SmpOp Bool) :=
  [.step false, .step false, .call false (.fork (.ok 3 4)), .step false,
    .step false, .step false, .step false, .step true, .step true, .step true]

/-- Both processes are running, each on its CPU. -/
theorem process_on_one_cpu_two : ∃ (n : Notes (SmpEvent Bool) (Smp Bool)) (s : Smp Bool),
      Runs (fun _ => True) n s ∧ (∃! c, s.cproc c = some 1) ∧ ∀ c, s.cproc c ≠ some 2 := by
  have hboot : Runs (fun _ => True) [] (boot 1 2 : Smp Bool) := .init ⟨1, 2, rfl⟩
  obtain ⟨n, s, hr, hrun1, hfree1, hun2, hfree2⟩ := hboot.played (P := fun _ s =>
    (s.proc 1).state = .running ∧ s.plock 1 = none ∧ (s.proc 2).state ≠ .running
      ∧ s.plock 2 = none) (fun _ _ _ => true) (fun _ _ _ _ => trivial) forkAndRun
    (by decide +kernel)
  obtain ⟨hcpu, -⟩ := process_on_one_cpu hr
  exact ⟨n, s, hr, (hcpu 1 hfree1).1.mp hrun1, (hcpu 2 hfree2).2 hun2⟩

end Smp

end GemOS
