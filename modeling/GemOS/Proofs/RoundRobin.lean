/-
Picks within one level of the scheduler.

While `q` waits at level `l`, ready there with nobody ready at a higher
priority, every pass picks at `l`, and the pick lies between `mlfq_head[l]`
and `q` in slot order (`gap` counts the slots). The head then moves to the
pick. So the picks close in on `q`, and each process gets at most one
turn, as long as every pick leaves the slot of the head behind. The head
is left on the process just picked, not behind it: when that process is
ready at `l` again before the next pass, it is picked again.
-/
import Mathlib.Data.Finset.Max
import Mathlib.Data.Fintype.Basic
import GemOS.Kernel.Sched
import GemOS.Proofs.Evict

namespace GemOS

open Function

-- ======== slots

/-- How many slots `q` is ahead of `p`, going round. -/
def gap (p q : ProcId) : Nat := (q.val + nproc - p.val) % nproc

theorem gap_lt (p q : ProcId) : gap p q < nproc := Nat.mod_lt _ (by decide)

theorem gap_self (p : ProcId) : gap p p = 0 := by
  simp only [gap, nproc]
  omega

theorem slotAt_gap (p q : ProcId) : slotAt p (gap p q) = q := by
  have hp := p.isLt
  have hq := q.isLt
  apply Fin.ext
  simp only [slotAt, gap, nproc] at *
  omega

theorem gap_slotAt (p : ProcId) {i : Nat} (hi : i < nproc) : gap p (slotAt p i) = i := by
  have hp := p.isLt
  simp only [slotAt, gap, nproc] at *
  omega

variable {p : ProcId} {ops : List SchedOp} {l : Fin mlfqLevels} {o : SchedOp} {prev : List ProcId}

theorem gap_between {h q : ProcId} (hle : gap h p ≤ gap h q) : gap p q = gap h q - gap h p := by
  have hh := h.isLt
  have hp := p.isLt
  have hq := q.isLt
  simp only [gap, nproc] at *
  omega

-- ======== one pass

/-- `q` is ready at `level`, and nobody is at a level before it. -/
structure Machine.Waits (m : Machine) (q : ProcId) (level : Fin mlfqLevels) : Prop where
  ready : m.ready level q = true
  first : ∀ lower < level, ∀ p, m.ready lower p = false

variable {m : Machine} {q : ProcId} {level : Fin mlfqLevels}

/-- The inner loop finds the first ready process, at the latest `q`. -/
theorem Machine.pickAt_ready (hq : m.ready level q = true) : ∃ p, m.pickAt level = some p
      ∧ gap (m.mlfqHead level) p ≤ gap (m.mlfqHead level) q
      ∧ m.ready level p = true
      ∧ (m.ready level (m.mlfqHead level) = true → p = m.mlfqHead level) := by
  have hgap := slotAt_gap (m.mlfqHead level) q
  have hlt := gap_lt (m.mlfqHead level) q
  obtain ⟨j, hj, hfirst⟩ := firstIndex_exists nproc (Nat.zero_le _)
    (by omega : gap (m.mlfqHead level) q < 0 + nproc)
    (f := fun i => m.ready level (slotAt (m.mlfqHead level) i)) (by rw [hgap]; exact hq)
  obtain ⟨hready, hbefore⟩ := firstIndex_spec _ hfirst
  refine ⟨slotAt (m.mlfqHead level) j, ?_, ?_, hready, fun hh => ?_⟩
  · unfold Machine.pickAt
    rw [hfirst]
    rfl
  · rw [gap_slotAt _ (by omega)]
    exact hj
  · have h0 := slotAt_gap (m.mlfqHead level) (m.mlfqHead level)
    rw [gap_self] at h0
    rcases Nat.eq_zero_or_pos j with rfl | hpos
    · exact h0
    · grind

theorem Machine.pickAt_none (h : ∀ p, m.ready level p = false) : m.pickAt level = none := by
  unfold Machine.pickAt
  rw [firstIndex_none fun i => h _]
  rfl

/-- While `q` waits, a pass picks at its level. -/
theorem Machine.Waits.pick (h : m.Waits q level) : ∃ p, m.pick = some (level, p)
      ∧ gap (m.mlfqHead level) p ≤ gap (m.mlfqHead level) q
      ∧ m.ready level p = true
      ∧ (m.ready level (m.mlfqHead level) = true → p = m.mlfqHead level) := by
  obtain ⟨p, hp, hle, hready, hhead⟩ := Machine.pickAt_ready h.ready
  have hnone : ∀ lower < level, m.pickAt lower = none := fun lower hl =>
    Machine.pickAt_none (h.first lower hl)
  refine ⟨p, ?_, hle, hready, hhead⟩
  have hpick : m.pick = [0, 1, 2, 3].findSome? fun level =>
      (m.pickAt level).map fun p => (level, p) := rfl
  rw [hpick]
  match level, hp, hnone with
  | 0, hp, _ => simp [hp]
  | 1, hp, hnone => simp [hp, hnone 0 (by decide)]
  | 2, hp, hnone => simp [hp, hnone 0 (by decide), hnone 1 (by decide)]
  | 3, hp, hnone => simp [hp, hnone 0 (by decide), hnone 1 (by decide), hnone 2 (by decide)]

-- ======== runs

/-- The process a step puts on the CPU, with its level. -/
def Machine.chosen (m : Machine) (o : SchedOp) : Option (Fin mlfqLevels × ProcId) :=
  match o, m.running with
  | .schedule, none => m.pick
  | _, _ => none

/-- The processes picked at a level during a run, in order. -/
def Machine.picksAt (level : Fin mlfqLevels) : Machine → List SchedOp → List ProcId
  | _, [] => []
  | m, o :: ops =>
    match m.chosen o with
    | none => picksAt level (m.step o) ops
    | some (l, p) =>
      if l = level then p :: picksAt level (m.step o) ops
      else picksAt level (m.step o) ops

/-- `q` waits at the level in every state of a run. -/
def WaitsThrough (q : ProcId) (level : Fin mlfqLevels) : Machine → List SchedOp → Prop
  | m, [] => m.Waits q level
  | m, o :: ops => m.Waits q level ∧ WaitsThrough q level (m.step o) ops

/-- At every pass of the scheduler after the first pick of the run, the
process that `mlfq_head[level]` is on is not ready at the level. -/
def HeadRests (level : Fin mlfqLevels) : Bool → Machine → List SchedOp → Prop
  | _, _, [] => True
  | picked, m, o :: ops =>
    (picked = true → o = .schedule → m.running = none → m.ready level (m.mlfqHead level) = false)
    ∧ HeadRests level (picked || (m.chosen o).isSome) (m.step o) ops

theorem Machine.schedule_pick (hrun : m.running = none) (hpick : m.pick = some (l, p)) :
    m.schedule = { m.upd p Proc.picked with
      mlfqHead := update m.mlfqHead l p
      running := some p } := by
  unfold Machine.schedule
  rw [hrun, hpick]

theorem Machine.chosen_some (h : m.chosen o = some (l, p)) :
    o = .schedule ∧ m.running = none ∧ m.pick = some (l, p) ∧ (m.step o).mlfqHead l = p := by
  unfold Machine.chosen at h
  split at h
  · rename_i hrun
    refine ⟨rfl, hrun, h, ?_⟩
    simp only [Machine.step, Machine.schedule_pick hrun h]
    exact update_self ..
  · cases h

/-- Only a pick moves the head of a level. -/
theorem Machine.step_mlfqHead (h : m.chosen o = none) : (m.step o).mlfqHead = m.mlfqHead := by
  cases o with
  | schedule =>
    simp only [Machine.step, Machine.schedule]
    split
    · rename_i hrun hpick
      simp only [Machine.chosen, hrun, hpick] at h
      cases h
    · rfl
  | timer fromUser =>
    have ht : m.tick.mlfqHead = m.mlfqHead := by
      unfold Machine.tick Machine.charge
      cases m.running <;> rfl
    have hc : m.clockintr.mlfqHead = m.mlfqHead := by
      unfold Machine.clockintr
      split <;> exact ht
    simp only [Machine.step, Machine.timer]
    split
    · exact hc
    · split
      · rw [← hc]
        unfold Machine.exit
        dsimp only
        split <;> rfl
      · split <;> exact hc
  | syscall => simp only [Machine.step]; split <;> rfl
  | sleep chan => simp only [Machine.step]; split <;> rfl
  | wakeup chan => rfl
  | kill pid => simp only [Machine.step, Machine.kkill]; split <;> rfl
  | exit =>
    simp only [Machine.step]
    split
    · rfl
    · unfold Machine.exit
      dsimp only
      split <;> rfl
  | create p pid => rfl
  | reap p => simp only [Machine.step]; split <;> rfl

/-- The picks so far, against the head and `q`: no repetition, all at the
head or behind it, the last one at the head. -/
structure Behind (m : Machine) (q : ProcId) (level : Fin mlfqLevels)
    (prev : List ProcId) : Prop where
  nodup : prev.Nodup
  behind : ∀ x ∈ prev, gap (m.mlfqHead level) q ≤ gap x q
  head : prev ≠ [] → m.mlfqHead level ∈ prev

/-- A pick ahead of the head is new, and becomes the head. -/
theorem Behind.pick {m' : Machine} (h : Behind m q level prev)
    (hle : gap (m.mlfqHead level) p ≤ gap (m.mlfqHead level) q)
    (hnew : prev ≠ [] → p ≠ m.mlfqHead level) (hhead : m'.mlfqHead level = p) :
    Behind m' q level (prev ++ [p]) := by
  have hgap := gap_between hle
  have hfresh : p ∉ prev := by
    intro hmem
    have hne := hnew (List.ne_nil_of_mem hmem)
    have hpos : 0 < gap (m.mlfqHead level) p := by
      rcases Nat.eq_zero_or_pos (gap (m.mlfqHead level) p) with h0 | h0
      · have hp := slotAt_gap (m.mlfqHead level) p
        have hh := slotAt_gap (m.mlfqHead level) (m.mlfqHead level)
        rw [h0] at hp
        rw [gap_self] at hh
        exact absurd (hp.symm.trans hh) hne
      · exact h0
    have := h.behind p hmem
    omega
  refine ⟨?_, ?_, fun _ => by rw [hhead]; simp⟩
  · grind [List.nodup_append, h.nodup, List.nodup_singleton, List.mem_singleton]
  · rw [hhead]
    intro x hx
    rcases List.mem_append.mp hx with hx | hx
    · have := h.behind x hx
      omega
    · rw [List.mem_singleton.mp hx]

theorem picks_nodup_iff (hw : WaitsThrough q level m ops) (h : Behind m q level prev) :
    (prev ++ m.picksAt level ops).Nodup ↔ HeadRests level (!prev.isEmpty) m ops := by
  induction ops generalizing m prev with
  | nil => simp [Machine.picksAt, HeadRests, h.nodup]
  | cons o ops ih =>
    obtain ⟨hwait, hnext⟩ := hw
    obtain ⟨p, hpick, hle, hready, hhead⟩ := hwait.pick
    cases hc : m.chosen o with
    | none =>
      have hstep := Machine.step_mlfqHead hc
      have hb : Behind (m.step o) q level prev :=
        ⟨h.nodup, by rw [hstep]; exact h.behind, by rw [hstep]; exact h.head⟩
      have hidle : o = .schedule → m.running ≠ none := by
        rintro rfl hrun
        simp only [Machine.chosen, hrun, hpick] at hc
        cases hc
      simp only [Machine.picksAt, HeadRests, hc, Option.isSome_none, Bool.or_false]
      rw [ih hnext hb]
      exact ⟨fun hr => ⟨fun _ ho hrun => absurd hrun (hidle ho), hr⟩, fun hr => hr.2⟩
    | some lp =>
      obtain ⟨l, p'⟩ := lp
      obtain ⟨ho, hrun, hpick', hhead'⟩ := Machine.chosen_some hc
      rw [hpick] at hpick'
      obtain ⟨rfl, rfl⟩ : level = l ∧ p = p' := by
        simpa using hpick'
      simp only [Machine.picksAt, HeadRests, hc, if_true, Option.isSome_some, Bool.or_true]
      by_cases hbad : prev ≠ [] ∧ m.ready level (m.mlfqHead level) = true
      · -- the process at the head is picked a second time
        have hmem : p ∈ prev := by
          rw [hhead hbad.2]
          exact h.head hbad.1
        refine iff_of_false (fun hn => ?_) fun hr => ?_
        · exact (List.nodup_append.mp hn).2.2 p hmem p (by simp) rfl
        · have := hr.1 (by simpa using hbad.1) ho hrun
          rw [hbad.2] at this
          cases this
      · have hnew : prev ≠ [] → p ≠ m.mlfqHead level := by
          rintro hne rfl
          exact hbad ⟨hne, hready⟩
        have hih := ih hnext (h.pick hle hnew hhead')
        rw [List.append_assoc, List.singleton_append] at hih
        rw [hih]
        have hflag : (!(prev ++ [p]).isEmpty) = true := by simp
        rw [hflag]
        refine ⟨fun hr => ⟨fun hne _ _ => ?_, hr⟩, fun hr => hr.2⟩
        have hne' : prev ≠ [] := by simpa using hne
        exact Bool.eq_false_iff.mpr fun hh => hbad ⟨hne', hh⟩

/-- While `q` waits at a level, no process is picked at that level twice
exactly when, at every pass after the first pick, the process under
`mlfq_head[level]` is not ready at the level. -/
theorem round_robin_iff (m : Machine) (q : ProcId) (level : Fin mlfqLevels)
    (ops : List SchedOp) (hw : WaitsThrough q level m ops) :
    (m.picksAt level ops).Nodup ↔ HeadRests level false m ops :=
  picks_nodup_iff hw ⟨List.nodup_nil, nofun, nofun⟩

/-- The machine with processes in the first slots, ready at level 0. -/
def created (ps : List ProcId) : Machine :=
  Machine.initial.run (ps.map fun p => .create p (p.val + 1))

theorem Machine.Waits.of_top (h : m.ready 0 q = true) : m.Waits q 0 :=
  ⟨h, fun lower hl => absurd hl (Fin.not_lt_zero lower)⟩

/-- Two processes that compute are picked one after the other while the
third waits. -/
theorem round_robin_three : ((created [0, 1, 2]).picksAt 0
      [.schedule, .timer true, .timer true, .schedule]).Nodup := by
  have hw : WaitsThrough 2 0 (created [0, 1, 2])
      [.schedule, .timer true, .timer true, .schedule] := by
    refine ⟨.of_top ?_, .of_top ?_, .of_top ?_, .of_top ?_, .of_top ?_⟩ <;> decide +kernel
  have hr : HeadRests 0 false (created [0, 1, 2])
      [.schedule, .timer true, .timer true, .schedule] := by
    refine ⟨nofun, fun _ ho => ?_, fun _ ho => ?_, fun _ _ _ => ?_, trivial⟩
    · cases ho
    · cases ho
    · decide +kernel
  exact (round_robin_iff _ 2 0 _ hw).mpr hr

/-- Process 0 makes two system calls in its slice of two ticks, so its
expired yield leaves it at level 0; the next pass picks it again, while
process 1 has been ready at level 0 all the time. -/
theorem starved_by_syscalls : WaitsThrough 1 0 (created [0, 1])
        [.schedule, .syscall, .syscall, .timer true, .timer true, .schedule]
      ∧ ¬ ((created [0, 1]).picksAt 0 [.schedule, .syscall, .syscall, .timer true, .timer true,
          .schedule]).Nodup := by
  refine ⟨⟨.of_top ?_, .of_top ?_, .of_top ?_, .of_top ?_, .of_top ?_,
    .of_top ?_, .of_top ?_⟩, ?_⟩ <;> decide +kernel

-- ======== the choice of one pass

/-- The order in which a pass looks for a process: by level, and in a
level by the slots from its head on. -/
def Machine.turnKey (m : Machine) (p : ProcId) : Nat ×ₗ Nat :=
  toLex ((m.proc p).level.val, gap (m.mlfqHead (m.proc p).level) p)

theorem Machine.ready_iff : m.ready level p = true ↔
      (m.proc p).state = .runnable ∧ (m.proc p).level = level := by
  simp only [Machine.ready, Bool.and_eq_true, beq_iff_eq]

/-- The process of least key waits at its level. -/
theorem Machine.waits_of_least (hq : (m.proc q).state = .runnable)
    (hleast : ∀ p, (m.proc p).state = .runnable →
      m.turnKey q ≤ m.turnKey p) : m.Waits q (m.proc q).level := by
  refine ⟨Machine.ready_iff.mpr ⟨hq, rfl⟩, fun lower hlower p => ?_⟩
  rw [Bool.eq_false_iff]
  intro hp
  obtain ⟨hstate, hlevel⟩ := Machine.ready_iff.mp hp
  have hle := hleast p hstate
  simp only [Machine.turnKey, hlevel, Prod.Lex.toLex_le_toLex] at hle
  have hlt : lower.val < (m.proc q).level.val := hlower
  omega

/-- A pass that finds a process finds the one of least key. -/
theorem Machine.pick_least (hex : ∃ q, (m.proc q).state = .runnable) :
    ∃ p, m.pick = some ((m.proc p).level, p) ∧ (m.proc p).state = .runnable
      ∧ ∀ q, (m.proc q).state = .runnable → m.turnKey p ≤ m.turnKey q := by
  obtain ⟨q0, hq0⟩ := hex
  obtain ⟨q, hq, hleast⟩ := Finset.exists_min_image
    (Finset.univ.filter fun q => (m.proc q).state = .runnable) m.turnKey ⟨q0, by simp [hq0]⟩
  simp only [Finset.mem_filter, Finset.mem_univ, true_and] at hq hleast
  obtain ⟨p, hpick, hgap, hready, -⟩ := (Machine.waits_of_least hq hleast).pick
  obtain ⟨hstate, hlevel⟩ := Machine.ready_iff.mp hready
  refine ⟨p, by rw [hlevel, hpick], hstate, fun r hr => ?_⟩
  refine le_trans ?_ (hleast r hr)
  simp only [Machine.turnKey, hlevel, Prod.Lex.toLex_le_toLex, lt_self_iff_false,
    true_and, false_or]
  exact hgap

theorem Machine.pick_none (h : ∀ p, (m.proc p).state ≠ .runnable) : m.pick = none := by
  refine List.findSome?_eq_none_iff.mpr fun level _ => ?_
  rw [Machine.pickAt_none, Option.map_none]
  intro p
  rw [Bool.eq_false_iff]
  exact fun hp => h p (Machine.ready_iff.mp hp).1

/-- A pass on an idle CPU: it picks nobody exactly when nobody is
RUNNABLE, and then changes nothing; otherwise the RUNNABLE process of
least level, the first of these from the head of the level on, starts a
slice, and no other process changes. -/
theorem schedule_choice (m : Machine) (hrun : m.running = none) :
    (m.schedule.running = none ↔ ∀ p, (m.proc p).state ≠ .runnable)
      ∧ (m.schedule.running = none → m.schedule = m)
      ∧ ∀ p, m.schedule.running = some p → (m.proc p).state = .runnable
          ∧ (∀ q, (m.proc q).state = .runnable → m.turnKey p ≤ m.turnKey q)
          ∧ m.schedule.proc p = { m.proc p with
                  state := .running
                  currentTicks := 0
                  timeSliceExpired := false
                  sliceStartSyscalls := (m.proc p).syscallCount
                  timesScheduled := (m.proc p).timesScheduled + 1 }
          ∧ ∀ q ≠ p, m.schedule.proc q = m.proc q := by
  by_cases hex : ∃ q, (m.proc q).state = .runnable
  · obtain ⟨p, hpick, hstate, hleast⟩ := Machine.pick_least hex
    rw [Machine.schedule_pick hrun hpick]
    refine ⟨?_, nofun, ?_⟩
    · exact ⟨nofun, fun h => absurd hstate (h p)⟩
    · intro p' hp'
      cases hp'
      exact ⟨hstate, hleast, update_self .., fun q hq => update_of_ne hq ..⟩
  · have hnone : ∀ p, (m.proc p).state ≠ .runnable := not_exists.mp hex
    have hstay : m.schedule = m := by
      unfold Machine.schedule
      rw [hrun, Machine.pick_none hnone]
    rw [hstay, hrun]
    exact ⟨⟨fun _ => hnone, fun _ => rfl⟩, fun _ => rfl, nofun⟩

theorem schedule_choice_first : (created [1, 2]).schedule.running = some 1
      ∧ ∀ q ≠ 1, (created [1, 2]).schedule.proc q = (created [1, 2]).proc q := by
  have hpick : (created [1, 2]).schedule.running = some 1 := by decide +kernel
  exact ⟨hpick, ((schedule_choice _ rfl).2.2 1 hpick).2.2.2⟩

end GemOS
