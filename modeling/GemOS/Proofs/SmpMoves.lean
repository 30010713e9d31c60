/-
What the CPUs can do to the process table, step by step.

`Move op s e s'` lists every change of the state that a step of
`Kernel.Smp` makes, with what it has checked before and the event it
leaves. `prog_move` is the only place where the programs are opened; the
invariants of the other modules are proved move by move. Moves that differ
only in the place a process goes to are one: `Goto` lists those that change
nothing else, `Begins` the beginnings of the calls.
-/
import GemOS.Kernel.Smp
import GemOS.Lib.WpNotes

namespace GemOS

open Function Prog

/-- Two contents of a slot that the process tree cannot tell apart. -/
structure Proc.Alike (x y : Proc) : Prop where
  state : y.state = x.state
  parent : y.parent = x.parent
  pid : y.pid = x.pid
  xstate : y.xstate = x.xstate

/-- A boost changes levels and ticks only. -/
theorem Proc.alike_boosted (x : Proc) : x.Alike x.boosted := by
  unfold Proc.boosted
  split
  · exact ⟨rfl, rfl, rfl, rfl⟩
  · exact ⟨rfl, rfl, rfl, rfl⟩

theorem Proc.boosted_unused {x : Proc} (h : x.state = .unused) :
    x.boosted = x := if_neg fun hne => hne.1 h

theorem Proc.alike_charged (x : Proc) : x.Alike x.charged := by
  unfold Proc.charged
  split
  · exact ⟨rfl, rfl, rfl, rfl⟩
  · exact ⟨rfl, rfl, rfl, rfl⟩

theorem Pc.eq_user {a : Pc} (h : a.isUser) : a = .user := by
  cases a with
  | user => rfl
  | _ => cases h

namespace Smp

variable {γ : Type} [DecidableEq γ]

/-- CPU `c` is in process `p`, out of `swtch`. -/
structure On (s : Smp γ) (c : γ) (p : ProcId) : Prop where
  mode : s.mode c = .exec p
  ctx : s.ctx p = .run

-- ======== the moves

/-- Where a process goes without any other change. -/
inductive Goto (s : Smp γ) (p : ProcId) : Option (SmpEvent γ) → Pc → Prop
  | allocNext {mem i} : s.pc p = .alloc mem i → Goto s p none (.alloc mem (i + 1))
  | allocNone {mem i} : s.pc p = .alloc mem i → Goto s p none .user
  | reparentNext {st} {pp : ProcId} : s.pc p = .reparent st pp.val →
      (s.proc pp).parent ≠ some p → Goto s p none (.reparent st (pp.val + 1))
  | reparentEnd {st i} : s.pc p = .reparent st i → nproc ≤ i →
      Goto s p none (.exitWake st (s.proc p).parent 0)
  | reparentWakeNext {st i} {q : ProcId} {c : γ} :
      s.pc p = .reparentWake st i q.val → s.cproc c = some q → On s c p →
      Goto s p none (.reparentWake st i (q.val + 1))
  | reparentWakeEnd {st i j} : s.pc p = .reparentWake st i j → nproc ≤ j →
      Goto s p none (.reparent st (i + 1))
  | exitWakeNext {st par j} : s.pc p = .exitWake st par j →
      Goto s p none (.exitWake st par (j + 1))
  | exitWakeEnd {st par j} : s.pc p = .exitWake st par j →
      Goto s p none (.exitEnd st)
  | waitNext {addr copied hk hk' i} : s.pc p = .waitScan addr copied hk i →
      Goto s p none (.waitScan addr copied hk' (i + 1))
  | waitTest {addr copied hk i} : s.pc p = .waitScan addr copied hk i →
      Goto s p none (.waitTest addr copied hk)
  | waitSleep {addr copied hk} : s.pc p = .waitTest addr copied hk →
      Goto s p none (.waitSleep addr copied)
  | killNext {pid i} : s.pc p = .kill pid i → Goto s p none (.kill pid (i + 1))
  | killNone {pid i} : s.pc p = .kill pid i → Goto s p none .user
  | ppidRead {q} : s.pc p = .ppidRead → (s.proc p).parent = some q →
      Goto s p (some (.reads p)) (.ppidPid q)
  | ppidPid {q} : s.pc p = .ppidPid q → s.plock q = none →
      Goto s p none (.ppidEnd (s.proc q).pid)

/-- Where a call begins. -/
inductive Begins (s : Smp γ) (p : ProcId) : SmpCall → Option (SmpEvent γ) → Pc → Prop
  | fork (mem) : Begins s p (.fork mem) none (.alloc mem 0)
  | exit (status) : p ≠ s.initproc → Begins s p (.exit status) none (.exit status)
  | wait (addr copied) : Begins s p (.wait addr copied) none (.wait addr copied)
  | kill (pid) : Begins s p (.kill pid) none (.kill pid 0)
  | getppid : Begins s p .getppid (some (.asks p)) .ppid

/-- `acquire(&wait_lock)` from the first place leads to the second. -/
inductive TakesWaitLock : Pc → Pc → Prop
  | exit (st) : TakesWaitLock (.exit st) (.reparent st 0)
  | wait (addr copied) : TakesWaitLock (.wait addr copied) (.waitScan addr copied false 0)

/-- A round of a `wakeup` in `kexit` that takes the lock of `q`. -/
inductive WakeStep (q : ProcId) : Pc → Pc → Prop
  | reparent (st i) : WakeStep q (.reparentWake st i q.val) (.reparentWake st i (q.val + 1))
  | exit (st par) : WakeStep q (.exitWake st par q.val) (.exitWake st par (q.val + 1))

/-- A call of `kwait` ends without a child. -/
inductive WaitEnds (s : Smp γ) (p : ProcId) : Option (SmpEvent γ) → Prop
  | test {addr copied hk} : s.pc p = .waitTest addr copied hk → WaitEnds s p none
  | notCopied {addr copied hk} {pp : ProcId} :
      s.pc p = .waitScan addr copied hk pp.val → (s.proc pp).parent = some p →
      (s.proc pp).state = .zombie → WaitEnds s p (some (.notCopied p pp))

inductive Move (op : SmpOp γ) (s : Smp γ) : Option (SmpEvent γ) → Smp γ → Prop
  | stay : Move op s none s
  | scan {c level start i} (level' start' i') :
      s.mode c = .scan level start i → Move op s none
        { s with mode := update s.mode c (.scan level' start' i') }
  | pick {c level start i} (p) : s.mode c = .scan level start i →
      s.plock p = none → (s.proc p).state = .runnable →
      Move op s (some (.picked c p)) (s.pick c level p)
  | switchBack {c p} : s.mode c = .back p → Move op s none (s.switchBack c p)
  | resume {c p} : s.mode c = .exec p → s.ctx p ≠ .run →
      Move op s none (s.resume p)
  /-- A change of a slot that is not a change of the tree. -/
  | tweak {q} {f : Proc → Proc} : (s.proc q).Alike (f (s.proc q)) →
      ((∃ c, On s c q) ∨ ((s.proc q).state = .unused → f (s.proc q) = s.proc q)) →
      Move op s none (s.updProc q f)
  | wake (q chan) : s.plock q = none → Move op s none (s.wakeOne q chan)
  | yield {c p} : On s c p → (s.pc p).interruptible → s.plock p = none →
      Move op s none { s.leave c p Proc.yielded .yielded with
          mode := update s.mode c (.back p) }
  | sleep {c p} (chan) : On s c p → (s.pc p).maySleep → s.plock p = none →
      Move op s none { s.goSleep c p chan with mode := update s.mode c (.back p) }
  | call {c p k e a} : op = .call c k → On s c p → s.pc p = .user →
      Begins s p k e a → Move op s e (s.setPc p a)
  | goto {c p e a} : On s c p → Goto s p e a → Move op s e (s.setPc p a)
  | forkFails {c p mem i np} : On s c p → s.pc p = .alloc mem i →
      s.plock np = none → (s.proc np).state = .unused →
      Move op s (some (.claimed p np)) (((s.claim np).freeproc np).setPc p .user)
  | forkFinds {c p mem i np} (tf root : Nat) : On s c p →
      s.pc p = .alloc mem i → s.plock np = none →
      (s.proc np).state = .unused →
      Move op s (some (.claimed p np)) (((s.claim np).updProc np fun x =>
          { x with
            trapframe := some tf
            pagetable := some root
            sz := ((s.claim np).proc p).sz }).setPc p (.adopt np s.nextpid))
  | adopt {c p np pid} : On s c p → s.pc p = .adopt np pid →
      s.waitLock = none → Move op s none
        ((s.updProc np fun x => { x with parent := some p }).setPc p
          (.ready np pid))
  | ready {c p np pid} : On s c p → s.pc p = .ready np pid →
      s.plock np = none → Move op s (some (.forked p np pid))
        ((s.updProc np fun x => { x with state := .runnable }).setPc p .user)
  | takeWaitLock {c p a} : On s c p → TakesWaitLock (s.pc p) a →
      s.waitLock = none →
      Move op s none ({ s with waitLock := some p }.setPc p a)
  | give {c p st} {pp : ProcId} : On s c p → s.pc p = .reparent st pp.val →
      (s.proc pp).parent = some p → Move op s none
        ((s.updProc pp fun x => { x with parent := some s.initproc }).setPc p
          (.reparentWake st pp.val 0))
  | wakeStep {c p q a} (chan) : On s c p → WakeStep q (s.pc p) a →
      s.plock q = none → Move op s none ((s.wakeOne q chan).setPc p a)
  | exit {c p st} : On s c p → s.pc p = .exitEnd st → s.plock p = none →
      Move op s (some (.exited p (s.proc p).pid st))
        { s.leave c p (fun x => { x with xstate := st, state := .zombie })
            .yielded with
          waitLock := none
          pc := update s.pc p .dead
          mode := update s.mode c (.back p) }
  | waitEnds {c p e} : On s c p → WaitEnds s p e →
      Move op s e ({ s with waitLock := none }.setPc p .user)
  | reap {c p addr copied hk} {pp : ProcId} : On s c p →
      s.pc p = .waitScan addr copied hk pp.val →
      (s.proc pp).parent = some p → s.plock pp = none →
      (s.proc pp).state = .zombie →
      Move op s (some (.reaped p pp (s.proc pp).pid (s.proc pp).xstate))
        ({ s.freeproc pp with waitLock := none }.setPc p .user)
  | waitSleep {c p addr copied} : On s c p → s.pc p = .waitSleep addr copied →
      s.plock p = none → Move op s none { s.goSleep c p (.proc p) with
          waitLock := none
          pc := update s.pc p (.wait addr copied)
          mode := update s.mode c (.back p) }
  | mark {c p q pid i} : On s c p → s.pc p = .kill pid i →
      s.plock q = none → (s.proc q).pid = pid →
      Move op s (some (.marked p q pid)) ((s.updProc q Proc.marked).setPc p .user)
  | ppidLock {c p} : On s c p → s.pc p = .ppid → s.plock p = none →
      Move op s none ({ s with plock := update s.plock p (some c) }.setPc p
          .ppidRead)
  | ppidEnd {c p v} : On s c p → s.pc p = .ppidEnd v →
      Move op s (some (.answers p v))
        ({ s with plock := update s.plock p none }.setPc p .user)

-- ======== the steps are moves

/-- The rest `x` of a step from `s`, run at `s1` behind the notes `pre`,
makes it one move. -/
def Makes (op : SmpOp γ) (s : Smp γ) (pre : Notes (SmpEvent γ) (Smp γ))
    (x : SmpM γ Unit) (s1 : Smp γ) : Prop :=
  wpn (fun _ => True) x (fun _ s' t => ∃ e : Option (SmpEvent γ),
    pre ++ t = (e.map fun e => (e, s)).toList ∧ Move op s e s') s1

section rules

variable {op : SmpOp γ} {s s1 s2 : Smp γ} {pre : Notes (SmpEvent γ) (Smp γ)} {x : SmpM γ Unit}

variable {f : Smp γ → Smp γ} {e : SmpEvent γ} {g : Unit → SmpM γ Unit}

theorem Makes.modify (h : Move op s none (f s1)) :
    Makes op s [] (Prog.modify f) s1 := ⟨none, rfl, h⟩

theorem Makes.modify_noted (h : Move op s (some e) (f s1)) :
    Makes op s [(e, s)] (Prog.modify f) s1 := ⟨some e, rfl, h⟩

theorem Makes.modify_bind (h : Makes op s pre (g ()) (f s1)) :
    Makes op s pre (Prog.modify f >>= g) s1 := wpn.modify_bind h

theorem Makes.get_bind {g : Smp γ → SmpM γ Unit}
    (h : Makes op s pre (g s1) s1) : Makes op s pre (get >>= g) s1 :=
  wpn.get_bind h

/-- A step has one event, noted before anything changes. -/
theorem Makes.note_bind (h : Makes op s [(e, s)] (g ()) s) :
    Makes op s [] (note e >>= g) s := wpn.note_bind h

theorem Makes.fault (e : SmpStop) : Makes op s pre (Prog.fault e) s1 := wpn.fault trivial

theorem Makes.ite {c : Prop} [Decidable c] {y : SmpM γ Unit}
    (hx : c → Makes op s pre x s1) (hy : ¬ c → Makes op s pre y s1) :
    Makes op s pre (if c then x else y) s1 := wpn.ite hx hy

theorem Makes.whenFree {q : ProcId} (h : s1.plock q = none → Makes op s pre x s1) :
    Makes op s pre (whenFree q x) s1 :=
  get_bind (ite h fun _ => fault _)

theorem Makes.whenWaitFree (h : s1.waitLock = none → Makes op s pre x s1) :
    Makes op s pre (whenWaitFree x) s1 :=
  get_bind (ite h fun _ => fault _)

/-- A round of a loop over the table, or its end. -/
theorem Makes.eachSlot {i : Nat} {f : ProcId → SmpM γ Unit}
    (hf : ∀ q : ProcId, i = q.val → Makes op s pre (f q) s1)
    (hx : nproc ≤ i → Makes op s pre x s1) : Makes op s pre (eachSlot i f x) s1 := by
  unfold Smp.eachSlot
  split
  · next h => exact hf ⟨i, h⟩ rfl
  · next h => exact hx (Nat.le_of_not_lt h)

/-- The checks of `sched` pass or nothing happens. -/
theorem Makes.sched {c : γ} {p : ProcId} (h : Makes op s pre (Prog.modify fun s =>
      { s with mode := update s.mode c (.back p) }) s1) :
    Makes op s pre (Smp.sched c p) s1 :=
  get_bind (ite (fun _ => fault _) fun _ => ite (fun _ => fault _) fun _ =>
    ite (fun _ => fault _) fun _ => h)

end rules

omit [DecidableEq γ] in
theorem claim_proc_self (s : Smp γ) (np : ProcId) :
    (s.claim np).proc np = (s.proc np).claimed s.nextpid :=
  update_self ..

section steps

variable {op : SmpOp γ} {s : Smp γ} {c : γ} {p : ProcId}

variable {i j addr : Nat} {st : Int} {chan : Option Chan} {q : ProcId} {copied hk : Bool}

/-- `scheduler` looks at one process. -/
theorem makes_scanRound {level : Fin mlfqLevels} {start : ProcId}
    (hmode : s.mode c = .scan level start i) : Makes op s [] (scanRound c level start i) s := by
  refine .whenFree fun hfree => .get_bind (.ite (fun h => ?_) fun _ => ?_)
  · exact .note_bind (.modify_noted (.pick _ hmode hfree h.1))
  · refine .modify ?_
    unfold scanNext
    split
    · exact .scan _ _ _ hmode
    · split
      · exact .scan _ _ _ hmode
      · exact .scan _ _ _ hmode

omit [DecidableEq γ] in
/-- Every failed `kfork` leaves the same slot. -/
theorem freeproc_updProc (s : Smp γ) (q : ProcId) (f : Proc → Proc)
    (h : (f (s.proc q)).freed = (s.proc q).freed) : (s.updProc q f).freeproc q = s.freeproc q := by
  unfold freeproc updProc
  dsimp only
  rw [update_self, update_idem, h]

/-- `kfork` looks at one slot, and fills it if it is free. -/
theorem makes_allocRound {mem : ForkMem} (hon : On s c p)
    (hpc : s.pc p = .alloc mem i) : Makes op s [] (allocRound p mem i) s := by
  refine .eachSlot (fun np _ => .whenFree fun hfree => .get_bind
    (.ite (fun hun => .note_bind (.modify_bind ?_)) fun _ => ?_)) fun _ => ?_
  · cases mem with
    | noTrapframe => exact .modify_bind (.modify_noted (.forkFails hon hpc hfree hun))
    | noPagetable tf =>
      refine .modify_bind (.modify_bind (.modify_noted ?_))
      rw [freeproc_updProc _ _ _ rfl]
      exact .forkFails hon hpc hfree hun
    | noCopy tf root =>
      refine .modify_bind (.modify_bind (.modify_noted ?_))
      rw [freeproc_updProc _ _ _ rfl]
      exact .forkFails hon hpc hfree hun
    | ok tf root =>
      refine .modify_bind (.get_bind (.modify_noted ?_))
      have hpid : (((s.claim np).updProc np fun x =>
          { x with
            trapframe := some tf
            pagetable := some root
            sz := ((s.claim np).proc p).sz }).proc np).pid = s.nextpid := by
        show (update (s.claim np).proc np _ np).pid = _
        rw [update_self, claim_proc_self]
        rfl
      rw [hpid]
      exact .forkFinds tf root hon hpc hfree hun
  · exact .modify (.goto hon (.allocNext hpc))
  · exact .modify (.goto hon (.allocNone hpc))

/-- `reparent` looks at one slot. -/
theorem makes_reparentRound (hon : On s c p) (hpc : s.pc p = .reparent st i) :
    Makes op s [] (reparentRound p st i) s := by
  refine .eachSlot (fun pp hi => .get_bind (.ite (fun h => ?_) fun h => ?_)) fun hi => .get_bind ?_
  · subst hi
    exact .modify_bind (.modify (.give hon hpc h))
  · subst hi
    exact .modify (.goto hon (.reparentNext hpc h))
  · exact .modify (.goto hon (.reparentEnd hpc hi))

/-- A round of `wakeup` and the step to the next one. -/
theorem makes_wakeRound {a : Pc} (hskip : s.cproc c = some q → Goto s p none a)
    (hwake : WakeStep q (s.pc p) a) (hon : On s c p) :
    Makes op s [] (wakeRound c q chan >>= fun _ => goto p a) s := by
  unfold wakeRound
  unfold Makes
  rw [bind_assoc]
  refine wpn.get_bind ?_
  by_cases hq : s.cproc c = some q
  · rw [if_pos hq]
    exact wpn.pure_bind (Makes.modify (.goto hon (hskip hq)))
  · rw [if_neg hq]
    unfold whenFree
    rw [bind_assoc]
    refine wpn.get_bind ?_
    by_cases hfree : s.plock q = none
    · rw [if_pos hfree]
      exact wpn.modify_bind (Makes.modify (.wakeStep chan hon hwake hfree))
    · rw [if_neg hfree]
      exact trivial

theorem makes_reparentWakeRound (hon : On s c p) (hpc : s.pc p = .reparentWake st i j) :
    Makes op s [] (reparentWakeRound c p st i j) s := by
  refine .eachSlot (fun q hj => .get_bind ?_) fun hj => ?_
  · subst hj
    refine makes_wakeRound (fun hq => .reparentWakeNext hpc hq hon) ?_ hon
    rw [hpc]
    exact .reparent st i
  · exact .modify (.goto hon (.reparentWakeEnd hpc hj))

theorem makes_exitWakeRound {par : Option ProcId} (hon : On s c p)
    (hpc : s.pc p = .exitWake st par j) : Makes op s [] (exitWakeRound c p st par j) s := by
  refine .eachSlot (fun q hj => ?_) fun _ => ?_
  · subst hj
    refine makes_wakeRound (fun _ => .exitWakeNext hpc) ?_ hon
    rw [hpc]
    exact .exit st par
  · exact .modify (.goto hon (.exitWakeEnd hpc))

/-- `kwait` looks at one slot, and reaps the zombie child in it. -/
theorem makes_waitRound (hon : On s c p) (hpc : s.pc p = .waitScan addr copied hk i) :
    Makes op s [] (waitRound p addr copied hk i) s := by
  refine .eachSlot (fun pp hi => .get_bind (.ite (fun hpar =>
    .whenFree fun hfree => .ite (fun hz => ?_) fun _ => ?_) fun _ => ?_))
    fun _ => ?_
  · subst hi
    refine .ite (fun _ => .note_bind (.modify_bind ?_)) fun _ =>
      .note_bind (.modify_bind (.modify_bind ?_))
    · exact .modify_noted (.waitEnds hon (.notCopied hpc hpar hz))
    · exact .modify_noted (.reap hon hpc hpar hfree hz)
  · exact .modify (.goto hon (.waitNext hpc))
  · exact .modify (.goto hon (.waitNext hpc))
  · exact .modify (.goto hon (.waitTest hpc))

theorem makes_waitTest (hon : On s c p) (hpc : s.pc p = .waitTest addr copied hk) :
    Makes op s [] (waitTest p addr copied hk) s := by
  have hend : Makes op s [] (waitReturn p) s := .modify_bind (.modify (.waitEnds hon (.test hpc)))
  refine .ite (fun _ => .whenFree fun _ => .get_bind (.ite (fun _ => hend)
    fun _ => ?_)) fun _ => hend
  exact .modify (.goto hon (.waitSleep hpc))

/-- `kkill` looks at one process. -/
theorem makes_killRound {pid : Int} (hon : On s c p)
    (hpc : s.pc p = .kill pid i) : Makes op s [] (killRound p pid i) s := by
  refine .eachSlot (fun q _ => .whenFree fun hfree => .get_bind
    (.ite (fun h => ?_) fun _ => ?_)) fun _ => ?_
  · exact .note_bind (.modify_bind (.modify_noted (.mark hon hpc hfree h)))
  · exact .modify (.goto hon (.killNext hpc))
  · exact .modify (.goto hon (.killNone hpc))

theorem makes_ppidRead (hon : On s c p) (hpc : s.pc p = .ppidRead) :
    Makes op s [] (ppidRead p) s := by
  refine .note_bind (.get_bind ?_)
  cases hpar : (s.proc p).parent with
  | none => exact .fault _
  | some q => exact .modify_noted (.goto hon (.ppidRead hpc hpar))

/-- A process goes on from its place in a call. -/
theorem makes_procStep (hon : On s c p) : Makes op s [] (procStep c p (s.pc p)) s := by
  have htake {a b : Pc} (h : s.pc p = a) (hab : TakesWaitLock a b) :
      Makes op s [] (takeWaitLock p b) s :=
    .whenWaitFree fun hfree => .modify_bind (.modify (.takeWaitLock hon (h ▸ hab) hfree))
  cases hpc : s.pc p with
  | user => exact .fault _
  | alloc mem i => exact makes_allocRound hon hpc
  | adopt np pid => exact .whenWaitFree fun h => .modify_bind (.modify (.adopt hon hpc h))
  | ready np pid =>
    exact .whenFree fun h => .note_bind (.modify_bind (.modify_noted (.ready hon hpc h)))
  | exit st => exact htake hpc (.exit st)
  | reparent st i => exact makes_reparentRound hon hpc
  | reparentWake st i j => exact makes_reparentWakeRound hon hpc
  | exitWake st par j => exact makes_exitWakeRound hon hpc
  | exitEnd st =>
    exact .whenFree fun h => .get_bind (.note_bind (.modify_bind
      (.sched (.modify_noted (.exit hon hpc h)))))
  | dead => exact .fault _
  | wait addr copied => exact htake hpc (.wait addr copied)
  | waitScan addr copied hk i => exact makes_waitRound hon hpc
  | waitTest addr copied hk => exact makes_waitTest hon hpc
  | waitSleep addr copied =>
    exact .whenFree fun h => .modify_bind (.sched (.modify (.waitSleep hon hpc h)))
  | kill pid i => exact makes_killRound hon hpc
  | ppid => exact .whenFree fun h => .modify_bind (.modify (.ppidLock hon hpc h))
  | ppidRead => exact makes_ppidRead hon hpc
  | ppidPid q =>
    exact .whenFree fun h => .get_bind (.modify (.goto hon (.ppidPid hpc h)))
  | ppidEnd v => exact .note_bind (.modify_bind (.modify_noted (.ppidEnd hon hpc)))

/-- What a CPU does next depends on where it is. -/
theorem makes_cpuStep : Makes op s [] (cpuStep c) s := by
  refine .get_bind ?_
  cases hmode : s.mode c with
  | scan level start i => exact makes_scanRound hmode
  | back p => exact .modify (.switchBack hmode)
  | exec p =>
    refine .ite (fun h => ?_) fun h => ?_
    · exact makes_procStep ⟨hmode, h⟩
    · exact .modify (.resume hmode h)

omit [DecidableEq γ] in
theorem on_of_current (h : s.current c = some p) : On s c p := by
  unfold current at h
  cases hmode : s.mode c with
  | scan level start i => rw [hmode] at h; cases h
  | back q => rw [hmode] at h; cases h
  | exec q =>
    rw [hmode] at h
    dsimp only at h
    split at h
    · next hctx =>
      cases h
      exact ⟨hmode, hctx⟩
    · cases h

/-- An operation of the process on the CPU. -/
theorem makes_running {ok : Pc → Bool} {x : ProcId → SmpM γ Unit}
    (h : ∀ p, On s c p → ok (s.pc p) → Makes op s [] (x p) s) :
    Makes op s [] (running c ok x) s := by
  refine .get_bind ?_
  cases hcur : s.current c with
  | none => exact .fault _
  | some p => exact .ite (h p (on_of_current hcur)) fun _ => .fault _

/-- A call begins. -/
theorem makes_start {k : SmpCall} (hop : op = .call c k) (hon : On s c p)
    (hpc : s.pc p = .user) : Makes op s [] (start p k) s := by
  cases k with
  | fork mem => exact .modify (.call hop hon hpc (.fork mem))
  | exit st =>
    refine .get_bind (.ite (fun _ => .fault _) fun h => ?_)
    exact .modify (.call hop hon hpc (.exit st h))
  | wait addr copied => exact .modify (.call hop hon hpc (.wait addr copied))
  | kill pid => exact .modify (.call hop hon hpc (.kill pid))
  | getppid => exact .note_bind (.modify_noted (.call hop hon hpc .getppid))

theorem makes_wake : Makes op s [] (wakeRound c q chan) s := by
  refine .get_bind (.ite (fun _ => ?_) fun _ => .whenFree fun hfree => ?_)
  · exact ⟨none, rfl, .stay⟩
  · exact .modify (.wake q chan hfree)

/-- One case for each operation. -/
theorem makes_prog (op : SmpOp γ) (s : Smp γ) : Makes op s [] (prog op) s := by
  cases op with
  | step c => exact makes_cpuStep
  | call c k => exact makes_running fun p hon hpc => makes_start rfl hon (Pc.eq_user hpc)
  | yield c =>
    exact makes_running fun p hon hpc => .whenFree fun h =>
      .modify_bind (.sched (.modify (.yield hon hpc h)))
  | sleep c chan =>
    exact makes_running fun p hon hpc => .whenFree fun h =>
      .modify_bind (.sched (.modify (.sleep chan hon hpc h)))
  | wake c q chan => exact .get_bind (.ite (fun _ => makes_wake) fun _ => .fault _)
  | boost c q =>
    refine .get_bind (.ite (fun _ => .whenFree fun _ => .modify ?_) fun _ => .fault _)
    exact .tweak (Proc.alike_boosted _) (.inr Proc.boosted_unused)
  | charge c =>
    exact makes_running fun p hon _ => .modify (.tweak (Proc.alike_charged _) (.inl ⟨c, hon⟩))
  | count c =>
    exact makes_running fun p hon _ => .modify (.tweak ⟨rfl, rfl, rfl, rfl⟩ (.inl ⟨c, hon⟩))
  | setkilled c =>
    exact makes_running fun p hon _ => .whenFree fun _ =>
      .modify (.tweak ⟨rfl, rfl, rfl, rfl⟩ (.inl ⟨c, hon⟩))
  | resize c sz =>
    exact makes_running fun p hon _ => .modify (.tweak ⟨rfl, rfl, rfl, rfl⟩ (.inl ⟨c, hon⟩))
  | exec c root sz =>
    exact makes_running fun p hon _ => .modify (.tweak ⟨rfl, rfl, rfl, rfl⟩ (.inl ⟨c, hon⟩))

end steps

/-- Every step is a move; its event, if it has one, is noted in the state
before it. -/
theorem prog_move {op : SmpOp γ} {s s' : Smp γ} {u : Unit}
    {t : Notes (SmpEvent γ) (Smp γ)} (h : prog op s = .ok (u, s', t)) :
    ∃ e : Option (SmpEvent γ), t = (e.map fun e => (e, s)).toList ∧ Move op s e s' :=
  (makes_prog op s).ok h

end Smp

end GemOS
