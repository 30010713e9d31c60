/-
A pipe is a first-in first-out stream of bytes.

# The stream

`Pipe.inFlight` reads the buffer from `nread` up to `nwrite`, both of
which wrap; `put_inFlight` and `inFlight_front` say that `pipewrite`
appends to it and `piperead` takes from its front. The two tests of the
source, for a full and for an empty pipe, compare the wrapped counters;
`full_iff` and `empty_iff` say that they are right while no more than
`PIPESIZE` bytes are in flight.

# The system

`PipeMove` says all that a step can do, and every step does one of these
(`pipe_move`). The invariant `Streamed` then takes one case each.
-/
import GemOS.Lib.Conc
import GemOS.Lib.Ring
import GemOS.Kernel.Pipe

namespace GemOS

open Function Prog

-- ======== the buffer

/-- The number of bytes in the buffer. -/
def Pipe.level (p : Pipe) : Nat := (p.nwrite - p.nread).toNat

/-- The bytes in the buffer, oldest first. -/
def Pipe.inFlight (p : Pipe) : List UInt8 :=
  (List.range p.level).map fun k => p.data ((p.nread.toNat + k) % pipesize)

section buffer

variable {p q : Pipe}

@[simp] theorem Pipe.length_inFlight (p : Pipe) : p.inFlight.length = p.level := by
  unfold Pipe.inFlight
  rw [List.length_map, List.length_range]

/-- The test of `pipewrite`. -/
theorem Pipe.full_iff (p : Pipe) :
    p.nwrite = p.nread + UInt32.ofNat pipesize ↔ p.level = pipesize := by
  have hr := p.nread.toNat_lt
  have hw := p.nwrite.toNat_lt
  rw [Pipe.level, UInt32.toNat_sub, ← UInt32.toNat_inj, UInt32.toNat_add,
    show (UInt32.ofNat pipesize).toNat = 512 from rfl]
  simp only [pipesize]
  omega

/-- The test of `piperead`. -/
theorem Pipe.empty_iff (p : Pipe) : p.nread = p.nwrite ↔ p.level = 0 :=
  eq_comm.trans Ring.toNat_sub_eq_zero.symm

/-- A byte more, while the pipe is not full. -/
theorem Pipe.put_level (ch : UInt8) (h : p.level < pipesize) : (p.put ch).level = p.level + 1 :=
  Ring.toNat_succ_sub h (by decide)

/-- A byte less, while the pipe is not empty. -/
theorem Pipe.advance_level (h : 0 < p.level) : p.level = p.advance.level + 1 :=
  Ring.toNat_sub_succ h

theorem Pipe.inFlight_eq (p : Pipe) :
    p.inFlight = Ring.window pipesize p.data p.nread.toNat p.level := rfl

/-- The cell behind the last byte. -/
theorem Pipe.nwrite_cell (p : Pipe) :
    p.nwrite.toNat % pipesize = (p.nread.toNat + p.level) % pipesize :=
  Ring.cell_eq (by decide) p.nread p.nwrite

/-- A stored byte goes behind the others. -/
theorem Pipe.put_inFlight (ch : UInt8) (h : p.level < pipesize) :
    (p.put ch).inFlight = p.inFlight ++ [ch] := by
  rw [Pipe.inFlight_eq, p.put_level ch h]
  show Ring.window pipesize (update p.data (p.nwrite.toNat % pipesize) ch) p.nread.toNat _ = _
  rw [p.nwrite_cell, Ring.window_snoc, update_self, Ring.window_update ch le_rfl h, p.inFlight_eq]

/-- The byte at the front is the oldest one. -/
theorem Pipe.inFlight_front (h : 0 < p.level) : p.inFlight = p.front :: p.advance.inFlight := by
  rw [p.inFlight_eq, p.advance_level h, Ring.window_cons]
  exact congrArg (p.front :: ·) (Ring.window_congr (Ring.cell_succ (by decide) p.nread))

/-- The stream is a matter of the buffer and the counters. -/
def Pipe.SameStream (p q : Pipe) : Prop :=
  q.data = p.data ∧ q.nread = p.nread ∧ q.nwrite = p.nwrite

theorem Pipe.SameStream.inFlight (h : p.SameStream q) : q.inFlight = p.inFlight := by
  unfold Pipe.inFlight Pipe.level
  rw [h.1, h.2.1, h.2.2]

end buffer

-- ======== the events

/-- The bytes `pipewrite` took in. -/
def accepted (log : List PipeEvent) : List UInt8 :=
  log.filterMap fun
    | .put _ ch => some ch
    | _ => none

/-- The bytes `piperead` gave out. -/
def delivered (log : List PipeEvent) : List UInt8 :=
  log.filterMap fun
    | .got _ ch => some ch
    | _ => none

/-- What an event adds to the bytes that the current call of `t` has
moved. -/
def movedStep (t : ProcId) (l : List UInt8) : PipeEvent → List UInt8
  | .called u => if u = t then [] else l
  | .put u ch => if u = t then l ++ [ch] else l
  | .got u ch => if u = t then l ++ [ch] else l
  | .returned _ _ => l

/-- The bytes that the current or last call of `t` has moved. -/
def moved (t : ProcId) (log : List PipeEvent) : List UInt8 :=
  log.foldl (movedStep t) []

/-- A call that succeeds returns the number of bytes it moved. -/
def ReturnExact (log : List PipeEvent) : PipeEvent → Prop
  | .returned t r => 0 ≤ r → r = (moved t log).length
  | _ => True

theorem accepted_append (log evs : List PipeEvent) :
    accepted (log ++ evs) = accepted log ++ accepted evs :=
  List.filterMap_append ..

theorem delivered_append (log evs : List PipeEvent) :
    delivered (log ++ evs) = delivered log ++ delivered evs :=
  List.filterMap_append ..

theorem moved_snoc (t : ProcId) (log : List PipeEvent) (e : PipeEvent) :
    moved t (log ++ [e]) = movedStep t (moved t log) e := by
  unfold moved
  rw [List.foldl_append]
  rfl

-- ======== the moves

/-- The bytes a call has moved, as its local variable has it. -/
def PipeCall.done : PipeCall → Nat
  | .write _ _ i => i
  | .await _ _ => 0
  | .copy _ _ i => i

def PipePos.done : PipePos → Option Nat
  | .idle => none
  | .outside c | .inside c | .asleep _ c => some c.done

/-- Nothing but the place of `t` changes. -/
def Beside (t : ProcId) (s s' : PipeSys) : Prop :=
  ∀ u, u ≠ t → (s'.pos u).done = (s.pos u).done

/-- What a step can do, with the events it leaves. -/
inductive PipeMove (s : PipeSys) : List PipeEvent → PipeSys → Prop
  | still {s' : PipeSys} : s.pipe.SameStream s'.pipe →
      (∀ t, (s'.pos t).done = (s.pos t).done) → PipeMove s [] s'
  | call {s' : PipeSys} (t : ProcId) : s.pipe.SameStream s'.pipe →
      (s'.pos t).done = some 0 → Beside t s s' →
      PipeMove s [.called t] s'
  | put {s' : PipeSys} (t : ProcId) (ch : UInt8) (i : Nat) :
      s.pipe.nwrite ≠ s.pipe.nread + UInt32.ofNat pipesize →
      s'.pipe = s.pipe.put ch → (s.pos t).done = some i →
      (s'.pos t).done = some (i + 1) → Beside t s s' →
      PipeMove s [.put t ch] s'
  | get {s' : PipeSys} (t : ProcId) (i : Nat) :
      s.pipe.nread ≠ s.pipe.nwrite → s'.pipe = s.pipe.advance →
      (s.pos t).done = some i → (s'.pos t).done = some (i + 1) →
      Beside t s s' → PipeMove s [.got t s.pipe.front] s'
  | leave {s' : PipeSys} (t : ProcId) (r : Int) :
      s.pipe.SameStream s'.pipe →
      (0 ≤ r → (s.pos t).done = some r.toNat) →
      (s'.pos t).done = none → Beside t s s' →
      PipeMove s [.returned t r] s'

/-- The events of a run. -/
def eventsOf (n : Notes PipeEvent PipeSys) : List PipeEvent := n.map Prod.fst

section moves

variable {s s' : PipeSys} {t : ProcId} {n : Notes PipeEvent PipeSys}

theorem done_woken (chan : PipeChan) (a : PipePos) : (a.woken chan).done = a.done := by
  cases a with
  | asleep ch c =>
    show (if ch = chan then PipePos.outside c else .asleep ch c).done = _
    split <;> rfl
  | _ => rfl

theorem beside_setPos (s : PipeSys) (t : ProcId) (a : PipePos) : Beside t s (s.setPos t a) := by
  intro u hu
  show PipePos.done (update s.pos t a u) = _
  rw [update_of_ne hu]

theorem setPos_self (s : PipeSys) (t : ProcId) (a : PipePos) :
    (s.setPos t a).pos t = a := update_self ..

/-- Moving `t` to a place where it has moved as much. -/
theorem done_setPos {a : PipePos} (h : a.done = (s.pos t).done)
    (u : ProcId) : ((s.setPos t a).pos u).done = (s.pos u).done := by
  by_cases hu : u = t
  · rw [hu, setPos_self, h]
  · exact beside_setPos s t a u hu

variable {r k : Int} {i : Nat} {dst : Nat → Bool}

/-- A call returns what it has moved. -/
theorem move_leave {a : PipeSys} (hpipe : s.pipe.SameStream a.pipe)
    (hpos : ∀ u, (a.pos u).done = (s.pos u).done) (hr : 0 ≤ r → (s.pos t).done = some r.toNat)
    (hrun : pipeLeave t r a = .ok ((), s', n)) : PipeMove s (eventsOf n) s' := by
  cases hrun
  refine .leave t r hpipe hr ?_ fun u hu => ?_
  · exact congrArg PipePos.done (setPos_self a t .idle)
  · exact (beside_setPos a t .idle u hu).trans (hpos u)

theorem move_done {chan : PipeChan} (hr : 0 ≤ r → (s.pos t).done = some r.toNat)
    (hrun : (Prog.modify (fun a : PipeSys => a.wakeup chan) >>= fun _ =>
      pipeLeave t r) s = .ok ((), s', n)) : PipeMove s (eventsOf n) s' := by
  rw [modify_bind_run] at hrun
  exact move_leave (a := s.wakeup chan) ⟨rfl, rfl, rfl⟩ (fun u => done_woken chan (s.pos u)) hr hrun

/-- A round of `pipewrite` puts at most one byte. -/
theorem move_write {src : Nat → Option UInt8} (hpos : (s.pos t).done = some i)
    (hrun : pipewriteRound t src k i s = .ok ((), s', n)) : PipeMove s (eventsOf n) s' := by
  have hret : (0 : Int) ≤ i → (s.pos t).done = some (i : Int).toNat := fun _ => hpos
  unfold pipewriteRound at hrun
  rw [get_bind_run] at hrun
  split at hrun
  · split at hrun
    · exact move_leave ⟨rfl, rfl, rfl⟩ (fun _ => rfl) (fun h => by omega) hrun
    · split at hrun
      · cases hrun
        refine .still ⟨rfl, rfl, rfl⟩ fun u => ?_
        have h := @done_setPos (s.wakeup .nread) t (.asleep .nwrite (.write src k i))
          (hpos.symm.trans (done_woken .nread (s.pos t)).symm) u
        exact h.trans (done_woken .nread (s.pos u))
      · next hfull =>
        cases hsrc : src i with
        | none =>
          simp only [hsrc] at hrun
          exact move_done hret hrun
        | some ch =>
          simp only [hsrc] at hrun
          cases hrun
          refine .put t ch i hfull rfl hpos ?_ (beside_setPos s t _)
          exact congrArg PipePos.done (setPos_self s t _)
  · exact move_done hret hrun

/-- `piperead` waits, or goes on to copy. -/
theorem move_await (hpos : (s.pos t).done = some 0)
    (hrun : pipereadAwait t dst k s = .ok ((), s', n)) : PipeMove s (eventsOf n) s' := by
  unfold pipereadAwait at hrun
  rw [get_bind_run] at hrun
  split at hrun
  · split at hrun
    · exact move_leave ⟨rfl, rfl, rfl⟩ (fun _ => rfl) (fun h => by omega) hrun
    · cases hrun
      exact .still ⟨rfl, rfl, rfl⟩ (done_setPos hpos.symm)
  · cases hrun
    exact .still ⟨rfl, rfl, rfl⟩ (done_setPos hpos.symm)

/-- A round of `piperead` takes at most one byte. -/
theorem move_copy (hpos : (s.pos t).done = some i)
    (hrun : pipereadCopy t dst k i s = .ok ((), s', n)) : PipeMove s (eventsOf n) s' := by
  have hret : (0 : Int) ≤ i → (s.pos t).done = some (i : Int).toNat := fun _ => hpos
  unfold pipereadCopy at hrun
  rw [get_bind_run] at hrun
  split at hrun
  · split at hrun
    · exact move_done hret hrun
    · next hempty =>
      split at hrun
      · cases hrun
        refine .get t i hempty rfl hpos ?_ (beside_setPos s t _)
        exact congrArg PipePos.done (setPos_self s t _)
      · refine move_done (fun h : 0 ≤ (if i = 0 then (-1 : Int) else i) => ?_) hrun
        split at h
        · omega
        · grind
  · exact move_done hret hrun

/-- One case for each place in a call. -/
theorem move_round (hrun : pipeRound t s = .ok ((), s', n)) : PipeMove s (eventsOf n) s' := by
  unfold pipeRound at hrun
  rw [get_bind_run] at hrun
  cases hpos : s.pos t with
  | inside c =>
    simp only [hpos] at hrun
    cases c with
    | write src k i => exact move_write (by rw [hpos]; rfl) hrun
    | await dst k => exact move_await (by rw [hpos]; rfl) hrun
    | copy dst k i => exact move_copy (by rw [hpos]; rfl) hrun
  | _ =>
    simp only [hpos] at hrun
    cases hrun

theorem pipeCall_ok {c : PipeCall} (hrun : pipeCall t c s = .ok ((), s', n)) :
    s.pos t = .idle ∧ s' = s.setPos t (.outside c) ∧ n = [(.called t, s')] := by
  unfold pipeCall at hrun
  rw [get_bind_run] at hrun
  cases hpos : s.pos t <;> simp only [hpos] at hrun <;> cases hrun
  exact ⟨rfl, rfl, rfl⟩

theorem pipeAcquire_ok (hrun : pipeAcquire t s = .ok ((), s', n)) :
    ∃ c, s.pos t = .outside c ∧ s.lock = none ∧ n = []
      ∧ s' = { s.setPos t (.inside c) with lock := some t } := by
  unfold pipeAcquire at hrun
  rw [get_bind_run] at hrun
  cases hpos : s.pos t <;> cases hlock : s.lock <;> simp only [hpos, hlock] at hrun <;> cases hrun
  exact ⟨_, rfl, rfl, rfl, rfl⟩

theorem reuse_ok (hrun : (PipeOp.reuse t).prog s = .ok ((), s', n)) :
    n = [] ∧ s' = { s with killed := update s.killed t false } := by
  unfold PipeOp.prog at hrun
  simp only [get_bind_run] at hrun
  cases hpos : s.pos t <;> simp only [hpos] at hrun <;> cases hrun
  exact ⟨rfl, rfl⟩

/-- Who is killed does not matter to the stream. -/
theorem PipeMove.setKilled {evs : List PipeEvent} (h : PipeMove s evs s')
    (k : ProcId → Bool) : PipeMove s evs { s' with killed := k } := by
  cases h with
  | still hp hd => exact .still hp hd
  | call t hp ht hb => exact .call t hp ht hb
  | put t ch i hfull hp hi ht hb => exact .put t ch i hfull hp hi ht hb
  | get t i hempty hp hi ht hb => exact .get t i hempty hp hi ht hb
  | leave t r hp hr ht hb => exact .leave t r hp hr ht hb

/-- Every step is one of the moves. -/
theorem pipe_move {o : PipeOp} (hrun : o.prog s = .ok ((), s', n)) :
    PipeMove s (eventsOf n) s' := by
  have hcall : ∀ {t : ProcId} {c : PipeCall}, c.done = 0 →
      pipeCall t c s = .ok ((), s', n) → PipeMove s (eventsOf n) s' := by
    intro t c hc hrun
    obtain ⟨-, rfl, rfl⟩ := pipeCall_ok hrun
    refine .call t ⟨rfl, rfl, rfl⟩ ?_ (beside_setPos s t _)
    rw [setPos_self]
    exact congrArg some hc
  cases o with
  | write t src k => exact hcall rfl hrun
  | read t dst k => exact hcall rfl hrun
  | acquire t =>
    obtain ⟨c, hpos, -, rfl, rfl⟩ := pipeAcquire_ok hrun
    exact .still ⟨rfl, rfl, rfl⟩ (done_setPos (by rw [hpos]; rfl))
  | round t => exact move_round hrun
  | killDuring t =>
    obtain ⟨⟨⟩, s1, n1, n2, hround, hend, rfl⟩ := bind_ok hrun
    cases hend
    rw [List.append_nil]
    exact (move_round hround).setKilled _
  | kill t =>
    cases hrun
    refine .still ⟨rfl, rfl, rfl⟩ (done_setPos ?_)
    cases s.pos t <;> rfl
  | reuse t =>
    obtain ⟨rfl, rfl⟩ := reuse_ok hrun
    exact .still ⟨rfl, rfl, rfl⟩ fun _ => rfl
  | close writable =>
    change pipeclose writable s = _ at hrun
    unfold pipeclose at hrun
    rw [get_bind_run] at hrun
    split at hrun
    · cases hrun
    · split at hrun
      · cases hrun
        exact .still ⟨rfl, rfl, rfl⟩ fun u => done_woken _ (s.pos u)
      · cases hrun
        exact .still ⟨rfl, rfl, rfl⟩ fun u => done_woken _ (s.pos u)

end moves

-- ======== the invariant

/-- What went in is what came out followed by what is in the buffer, and
the calls know how much they have moved. -/
structure Streamed (log : List PipeEvent) (s : PipeSys) : Prop where
  fifo : accepted log = delivered log ++ s.pipe.inFlight
  level : s.pipe.level ≤ pipesize
  exact : Conc.Traced ReturnExact log
  counted : ∀ t k, (s.pos t).done = some k → (moved t log).length = k

section invariant

variable {s s' : PipeSys} {log : List PipeEvent}

/-- The counts of the other processes, when an event of `t` happens. -/
theorem Streamed.others {t : ProcId} {e : PipeEvent} (h : Streamed log s)
    (he : ∀ u, u ≠ t → movedStep u (moved u log) e = moved u log) (hb : Beside t s s')
    (ht : ∀ k, (s'.pos t).done = some k → (moved t (log ++ [e])).length = k)
    (u : ProcId) (k : Nat) (hu : (s'.pos u).done = some k) : (moved u (log ++ [e])).length = k := by
  by_cases hut : u = t
  · rw [hut] at hu ⊢
    exact ht k hu
  · rw [hb u hut] at hu
    rw [moved_snoc, he u hut]
    exact h.counted u k hu

/-- What an event adds to the count of its own process. -/
theorem Streamed.counted_snoc {t : ProcId} {c : UInt8} {e : PipeEvent} {i k : Nat}
    (h : Streamed log s) (hi : (s.pos t).done = some i) (ht : (s'.pos t).done = some (i + 1))
    (he : movedStep t (moved t log) e = moved t log ++ [c]) (hk : (s'.pos t).done = some k) :
    (moved t (log ++ [e])).length = k := by
  rw [ht] at hk
  cases hk
  rw [moved_snoc, he, List.length_append, h.counted t i hi]
  rfl

/-- The stream is as it was. -/
theorem Streamed.same {evs : List PipeEvent} (h : Streamed log s)
    (hp : s.pipe.SameStream s'.pipe) (ha : accepted evs = []) (hd : delivered evs = []) :
    accepted (log ++ evs) = delivered (log ++ evs) ++ s'.pipe.inFlight
      ∧ s'.pipe.level ≤ pipesize := by
  rw [accepted_append, delivered_append, ha, hd, List.append_nil, List.append_nil,
    ← Pipe.length_inFlight, hp.inFlight, Pipe.length_inFlight]
  exact ⟨h.fifo, h.level⟩

/-- What is written, less what is read, is in flight. -/
theorem Streamed.move {evs : List PipeEvent} (h : Streamed log s)
    (hm : PipeMove s evs s') : Streamed (log ++ evs) s' := by
  cases hm with
  | still hp hd =>
    obtain ⟨hfifo, hlevel⟩ := h.same hp rfl (rfl : delivered [] = [])
    rw [List.append_nil] at hfifo ⊢
    refine ⟨hfifo, hlevel, h.exact, fun t k ht => ?_⟩
    rw [hd t] at ht
    exact h.counted t k ht
  | call t hp ht hb =>
    obtain ⟨hfifo, hlevel⟩ := h.same hp rfl (rfl : delivered [.called t] = [])
    refine ⟨hfifo, hlevel, h.exact.snoc trivial, h.others (t := t) ?_ hb ?_⟩
    · exact fun u hu => if_neg fun heq => hu heq.symm
    · intro k hk
      rw [ht] at hk
      cases hk
      rw [moved_snoc]
      exact congrArg List.length (if_pos rfl)
  | put t ch i hfull hp hi ht hb =>
    have hroom : s.pipe.level < pipesize :=
      Nat.lt_of_le_of_ne h.level fun heq => hfull (s.pipe.full_iff.mpr heq)
    refine ⟨?_, ?_, h.exact.snoc trivial, h.others (t := t) ?_ hb ?_⟩
    · rw [accepted_append, delivered_append, hp, Pipe.put_inFlight ch hroom, h.fifo]
      simp [accepted, delivered]
    · rw [hp, Pipe.put_level ch hroom]
      exact hroom
    · exact fun u hu => if_neg fun heq => hu heq.symm
    · exact fun k hk => h.counted_snoc hi ht (if_pos rfl) hk
  | get t i hempty hp hi ht hb =>
    have hpos : 0 < s.pipe.level := Nat.pos_of_ne_zero fun heq => hempty (s.pipe.empty_iff.mpr heq)
    refine ⟨?_, ?_, h.exact.snoc trivial, h.others (t := t) ?_ hb ?_⟩
    · rw [accepted_append, delivered_append, hp, h.fifo, Pipe.inFlight_front hpos]
      simp [accepted, delivered]
    · have := s.pipe.advance_level hpos
      have := h.level
      rw [hp]
      omega
    · exact fun u hu => if_neg fun heq => hu heq.symm
    · exact fun k hk => h.counted_snoc hi ht (if_pos rfl) hk
  | leave t r hp hr ht hb =>
    obtain ⟨hfifo, hlevel⟩ := h.same hp rfl (rfl : delivered [.returned t r] = [])
    refine ⟨hfifo, hlevel, h.exact.snoc fun h0 => ?_, h.others (t := t) ?_ hb ?_⟩
    · rw [h.counted t _ (hr h0)]
      exact (Int.toNat_of_nonneg h0).symm
    · exact fun _ _ => rfl
    · grind

end invariant

/-- The invariant holds in every run. -/
theorem PipeRuns.streamed {n : Notes PipeEvent PipeSys} {s : PipeSys}
    (h : PipeRuns n s) : Streamed (eventsOf n) s := by
  induction h with
  | @init s hs =>
    have hlevel : s.pipe.level = 0 := s.pipe.empty_iff.mp (hs.nread.trans hs.nwrite.symm)
    refine ⟨?_, ?_, .nil, fun t k hk => ?_⟩
    · have hnil : s.pipe.inFlight = [] :=
        List.length_eq_zero_iff.mp ((Pipe.length_inFlight _).trans hlevel)
      rw [hnil]
      rfl
    · rw [hlevel]
      exact Nat.zero_le _
    · rw [hs.pos t] at hk
      cases hk
  | step o _ hrun _ ih =>
    unfold eventsOf
    rw [List.map_append]
    exact ih.move (pipe_move hrun)

/-- In every state of every run: the bytes delivered, followed by the at
most `PIPESIZE` bytes in the buffer, are the bytes accepted; and every
call that succeeded returned the number of bytes it moved. -/
theorem pipe_fifo_stream {n : Notes PipeEvent PipeSys} {s : PipeSys} (h : PipeRuns n s) :
    accepted (eventsOf n) = delivered (eventsOf n) ++ s.pipe.inFlight
      ∧ s.pipe.inFlight.length ≤ pipesize
      ∧ Conc.Traced ReturnExact (eventsOf n) := by
  have hs := h.streamed
  refine ⟨hs.fifo, ?_, hs.exact⟩
  rw [Pipe.length_inFlight]
  exact hs.level

/-- A pipe full of junk that nobody uses yet. -/
def emptyPipe : PipeSys :=
  { pipe := ⟨fun _ => 5, 0, 0, true, true⟩
    lock := none
    pos := fun _ => .idle
    killed := fun _ => false }

theorem emptyPipe_runs : PipeRuns [] emptyPipe := .init ⟨rfl, rfl, rfl, rfl, rfl, fun _ => rfl⟩

/-- Process 0 writes two bytes while process 1 waits to read one. -/
def writeTwo : List PipeOp :=
  [.read 1 (fun _ => true) 1, .acquire 1, .round 1,
    .write 0 (fun i => some (UInt8.ofNat (7 + i))) 2, .acquire 0, .round 0,
    .round 0, .round 0, .acquire 1, .round 1, .round 1, .round 1]

theorem pipe_fifo_stream_two : ∃ n s, PipeRuns n s ∧ accepted (eventsOf n) = [7, 8]
      ∧ delivered (eventsOf n) = [7] ∧ s.pipe.inFlight = [8]
      ∧ Conc.Traced ReturnExact (eventsOf n) := by
  obtain ⟨n, s, hr, hin, hout⟩ := emptyPipe_runs.played (P := fun n _ =>
    accepted (eventsOf n) = [7, 8] ∧ delivered (eventsOf n) = [7])
    (fun _ _ _ _ _ => trivial) writeTwo (by decide +kernel)
  obtain ⟨hfifo, -, hexact⟩ := pipe_fifo_stream hr
  rw [hin, hout] at hfifo
  exact ⟨n, s, hr, hin, hout, (List.cons.inj hfifo).2.symm, hexact⟩

end GemOS
