/-
Which frames concurrent evictions choose.

A frame stays in use, with its old owner, from the moment `evict_page`
chooses it until `update_frame_table` registers it anew, and nothing in
the table tells a later scan that it is taken. So two scans with no
registration between them can choose the same frame, and both callers are
then given it.

`Outstanding log v` says that `v` has been chosen, that the call has not
failed so far, and that `v` has not been registered since. `VictimsFresh`
asks that each scan finds, for each outstanding frame, an evictable frame
the clock prefers to it.
-/
import GemOS.Proofs.Evict
import GemOS.Proofs.Interleave

namespace GemOS

open Prog Conc

-- ======== outcomes

/-- The next outcome of process `t` in `b` is that `evict_page` returns
the frame `v`. -/
def Returns (t : ProcId) (v : Nat) (b : List Event) : Prop :=
  ∃ b1 b2, b = b1 ++ .evicted t v :: b2 ∧ Event.failed t ∉ b1 ∧ ∀ i, Event.evicted t i ∉ b1

/-- The next outcome of process `t` in `b` is that `evict_page` fails. -/
def Fails (t : ProcId) (b : List Event) : Prop :=
  ∃ b1 b2, b = b1 ++ .failed t :: b2 ∧ ∀ i, Event.evicted t i ∉ b1

theorem Returns.not_fails {t : ProcId} {v : Nat} {b c : List Event}
    (h : Returns t v (b ++ c)) : ¬ Fails t b := by
  rintro ⟨f1, f2, rfl, hf⟩
  obtain ⟨r1, r2, heq, hr, -⟩ := h
  rw [List.append_assoc] at heq
  -- whichever outcome comes first excludes the other
  rcases List.append_eq_append_iff.mp heq with ⟨m, h1, h2⟩ | ⟨m, h1, h2⟩
  · cases m with
    | nil => cases h2
    | cons e m =>
      obtain ⟨rfl, -⟩ := List.cons.inj h2
      exact hr (by rw [h1]; simp)
  · cases m with
    | nil => cases h2
    | cons e m =>
      obtain ⟨rfl, -⟩ := List.cons.inj h2
      exact hf v (by rw [h1]; simp)

/-- The frame has been chosen by a call that has not failed so far, and
not registered since. -/
def Outstanding (log : List Event) (v : Nat) : Prop :=
  ∃ a t b, log = a ++ .selected t v :: b ∧ (∀ u, Event.registered u v ∉ b) ∧ ¬ Fails t b

/-- Two calls that return one frame have seen it registered between
their choices. -/
def DistinctVictims (log : List Event) : Prop :=
  ∀ a b c t u v, log = a ++ .selected t v :: (b ++ .selected u v :: c) →
    Returns t v (b ++ .selected u v :: c) → Returns u v c →
    ∃ x, Event.registered x v ∈ b

-- ======== the trace

/-- Each scan finds evictable frames that the clock prefers to the
outstanding ones. -/
def VictimsFresh : ProcId → Section → Kernel → List Event → Prop
  | _, .scan start, s, log => ∀ v, Outstanding log v →
      ∃ i < maxFrames, (s.frameTable i).evictable.isSome
        ∧ clockKey (fun p => (s.proc p).level) s.frameTable s.clockHand start i
          < clockKey (fun p => (s.proc p).level) s.frameTable s.clockHand start v
  | _, _, _, _ => True

/-- A frame that is chosen is not outstanding. -/
def VictimTrace (log : List Event) : Event → Prop
  | .selected _ v => ¬ Outstanding log v
  | _ => True

theorem victimTrace_stable : Stable VictimsFresh fun _ log => Traced VictimTrace log := by
  intro t lbl s s' log evs ha hI hC
  cases ha with
  | aside _ hev =>
    refine hI.append fun a e he => ?_
    have hlight := (hev e he).2
    cases e with
    | selected => cases hlight
    | _ => trivial
  | search | pin =>
    refine hI.append fun a e he => ?_
    obtain ⟨x, -, rfl⟩ := List.mem_map.mp he
    trivial
  | record | clear | take => exact hI.snoc trivial
  | commit _ hclose =>
    refine hI.append fun a e he => ?_
    rcases List.mem_cons.mp he with rfl | he
    · cases e with
      | selected => exact hclose.elim
      | _ => trivial
    · rw [List.mem_singleton.mp he]
      trivial
  | scan hrun _ =>
    obtain ⟨v, rfl, hchoice⟩ := selectVictim_choice hrun
    refine hI.snoc fun hout => ?_
    obtain ⟨i, hi, hev, hlt⟩ := hC v hout
    by_cases hiv : i = v
    · rw [hiv] at hlt
      exact absurd hlt (lt_irrefl _)
    · exact absurd (hlt.trans (hchoice.least i hi hiv hev)) (lt_irrefl _)

/-- In every interleaving in which each scan prefers some evictable frame
to every outstanding one, no two evictions return the same frame without
its registration in between. -/
theorem evictions_return_distinct {s0 : Kernel} {w : KPool}
    (hr : Interleaved VictimsFresh s0 w) : DistinctVictims w.log := by
  have htrace : Traced VictimTrace w.log := hr.invariant (fun _ log => Traced VictimTrace log) .nil
      (fun _ _ _ _ h => h) victimTrace_stable
  intro a b c t u v hlog ht _
  by_contra hnone
  have hout : Outstanding (a ++ .selected t v :: b) v := by
    refine ⟨a, t, b, rfl, fun x hx => hnone ⟨x, hx⟩, ht.not_fails⟩
  exact htrace (a ++ .selected t v :: b) (.selected u v) c (by rw [hlog]; simp) hout

-- ======== schedules

/-- The two processes with no page free and one to come back: the script
says what the rest of the kernel does before each `kalloc`. -/
def starved (env : List (List EnvOp)) : Kernel :=
  { twoProcs with freelist := [], held := [0x80028000], env := env }

/-- A check of `VictimsFresh`: every frame chosen so far is the one just
registered. -/
def victimsFresh : ProcId → Section → Kernel → List Event → Bool
  | _, .scan _, _, log => log.all fun e =>
    match e with
    | .selected _ v => log.getLast? == some (.registered 0 v)
    | _ => true
  | _, _, _, _ => true

theorem victimsFresh_of_check (t : ProcId) (lbl : Section) (s : Kernel)
    (log : List Event) (h : victimsFresh t lbl s log = true) :
    VictimsFresh t lbl s log := by
  cases lbl with
  | scan start =>
    rintro v ⟨a, u, b, rfl, hreg, -⟩
    simp only [victimsFresh, List.all_eq_true] at h
    have hlast := h (.selected u v) (by simp)
    simp only [beq_iff_eq] at hlast
    rcases List.eq_nil_or_concat b with rfl | ⟨b', e, rfl⟩
    · simp at hlast
    · grind [List.append_assoc, List.getLast]
  | _ => trivial

/-- Two faults one after the other, each with an eviction. -/
theorem evictions_return_distinct_twice : ∃ w, Interleaved VictimsFresh
        (starved [[], [.give 0x80028000], [.take], [.give 0x80028000]]) w
      ∧ .evicted 0 0 ∈ w.log ∧ .evicted 1 1 ∈ w.log
      ∧ DistinctVictims w.log := by
  obtain ⟨w, hw, hlog⟩ := twoCalls_run VictimsFresh victimsFresh
    (starved [[], [.give 0x80028000], [.take], [.give 0x80028000]])
    (.fault 0x80022000 0x1000) (.fault 0x80025000 0x1000)
    (List.replicate 26 0 ++ List.replicate 26 1)
    (.selected 0 0 :: swapOutEvents 0 0x80028000 0 (frameOf 0) 0 ++ [.evicted 0 0, .registered 0 0]
      ++ .selected 1 1 :: swapOutEvents 1 0x80028000 1 (frameOf 1) 1
      ++ [.evicted 1 1, .registered 1 1])
    victimsFresh_of_check (by decide +kernel)
  exact ⟨w, hw, by rw [hlog]; simp, by rw [hlog]; simp, evictions_return_distinct hw⟩

/-- The frame of process 0 after the first of two swap-outs. -/
def frameAgain : FrameEntry := { frameOf 0 with swapped := true, swapIndex := 0 }

/-- Two faults that scan before either has gone on: both evict the first
frame, and both are given it. -/
theorem evictions_return_same_frame : ∃ w, Interleaved (fun _ _ _ _ => True)
        (starved [[], [], [.give 0x80028000]]) w
      ∧ ¬ DistinctVictims w.log := by
  obtain ⟨w, hw, hlog⟩ := twoCalls_run (fun _ _ _ _ => True)
    (fun _ _ _ _ => true) (starved [[], [], [.give 0x80028000]])
    (.fault 0x80022000 0x1000) (.fault 0x80025000 0x1000)
    (List.replicate 8 0 ++ List.replicate 8 1 ++ List.replicate 13 0 ++ List.replicate 13 1)
    (.selected 0 0 :: .selected 1 0 :: (swapOutEvents 0 0x80028000 0 (frameOf 0) 0
      ++ .evicted 0 0 :: (swapOutEvents 1 0x80028000 1 frameAgain 1 ++ [.evicted 1 0])))
    (fun _ _ _ _ _ => trivial) (by decide +kernel)
  refine ⟨w, hw, fun hdist => ?_⟩
  have h0 : ∀ rest, Returns 0 0 (.selected 1 0 :: (swapOutEvents 0 0x80028000 0 (frameOf 0) 0
      ++ .evicted 0 0 :: rest)) := fun rest =>
    ⟨.selected 1 0 :: swapOutEvents 0 0x80028000 0 (frameOf 0) 0,
      rest, rfl, by simp [swapOutEvents], by simp [swapOutEvents]⟩
  have h1 : Returns 1 0 (swapOutEvents 0 0x80028000 0 (frameOf 0) 0
      ++ .evicted 0 0 :: (swapOutEvents 1 0x80028000 1 frameAgain 1 ++ [.evicted 1 0])) :=
    ⟨swapOutEvents 0 0x80028000 0 (frameOf 0) 0
      ++ .evicted 0 0 :: swapOutEvents 1 0x80028000 1 frameAgain 1,
      [], by simp, by simp [swapOutEvents], by simp [swapOutEvents]⟩
  obtain ⟨x, hx⟩ := hdist [] [] _ 0 1 0 hlog (h0 _) h1
  cases hx

end GemOS
