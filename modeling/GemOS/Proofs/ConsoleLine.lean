/-
The console's line buffer.

# The buffer

The cells from `r` to `w` hold what readers may take (`unread`), those from
`w` to `e` what can still be edited (`pending`). The indices wrap, but never
apart by more than the buffer (`Ordered`). Each assignment of the source is
one change of the two lists.

# The input

What was typed and not erased, and how much of it is committed, is read off
the events alone (`lineOf`). The invariant `Edited` says that the input is
what readers have consumed, followed by the two lists.
-/
import GemOS.Lib.Conc
import GemOS.Lib.Ring
import GemOS.Lib.WpNotes
import GemOS.Kernel.Console

namespace GemOS

open Function Prog

-- ======== the buffer

/-- The indices in the order `r`, `w`, `e`, at most the buffer apart. -/
structure Cons.Ordered (s : Cons) : Prop where
  committed : (s.w - s.r).toNat ≤ (s.e - s.r).toNat
  room : (s.e - s.r).toNat ≤ inputBufSize

/-- Committed and not read. -/
def Cons.unread (s : Cons) : List UInt8 :=
  Ring.window inputBufSize s.buf s.r.toNat (s.w - s.r).toNat

/-- Typed and not committed. -/
def Cons.pending (s : Cons) : List UInt8 :=
  Ring.window inputBufSize s.buf s.w.toNat (s.e - s.w).toNat

section buffer

variable {s : Cons}

/-- The cells are a power of two. -/
theorem inputBufSize_dvd : inputBufSize ∣ 2 ^ 32 := by decide

theorem Cons.Ordered.pending_length (h : s.Ordered) :
    (s.e - s.r).toNat = (s.w - s.r).toNat + (s.e - s.w).toNat := by
  have hr := s.r.toNat_lt
  have hw := s.w.toNat_lt
  have he := s.e.toNat_lt
  have hle := h.committed
  rw [UInt32.toNat_sub, UInt32.toNat_sub] at *
  rw [UInt32.toNat_sub]
  omega

@[simp] theorem Cons.length_unread (s : Cons) :
    s.unread.length = (s.w - s.r).toNat := Ring.length_window

@[simp] theorem Cons.length_pending (s : Cons) :
    s.pending.length = (s.e - s.w).toNat := Ring.length_window

-- ------------------------------------------------------------------ store

theorem Cons.Ordered.store (h : s.Ordered) (c : UInt8)
    (hroom : (s.e - s.r).toNat < inputBufSize) : (s.store c).Ordered := by
  have hnext : ((s.store c).e - s.r).toNat = (s.e - s.r).toNat + 1 :=
    Ring.toNat_succ_sub hroom (by decide)
  refine ⟨?_, ?_⟩
  · rw [show (s.store c).r = s.r from rfl, hnext]
    exact Nat.le_succ_of_le h.committed
  · rw [show (s.store c).r = s.r from rfl, hnext]
    exact hroom

/-- Storing does not touch what is committed. -/
theorem Cons.Ordered.unread_store (h : s.Ordered) (c : UInt8)
    (hroom : (s.e - s.r).toNat < inputBufSize) : (s.store c).unread = s.unread := by
  show Ring.window inputBufSize (update s.buf (s.e.toNat % inputBufSize) c) _ _ = _
  rw [Ring.cell_eq inputBufSize_dvd s.r s.e]
  exact Ring.window_update c h.committed hroom

/-- A stored byte is the last of the line. -/
theorem Cons.Ordered.pending_store (h : s.Ordered) (c : UInt8)
    (hroom : (s.e - s.r).toNat < inputBufSize) : (s.store c).pending = s.pending ++ [c] := by
  have hlen : (s.e - s.w).toNat < inputBufSize := by
    rw [h.pending_length] at hroom
    exact Nat.lt_of_le_of_lt (Nat.le_add_left ..) hroom
  show Ring.window inputBufSize (update s.buf (s.e.toNat % inputBufSize) c) s.w.toNat
    (s.e + 1 - s.w).toNat = _
  rw [Ring.toNat_succ_sub hlen (by decide), Ring.cell_eq inputBufSize_dvd s.w s.e,
    Ring.window_snoc, update_self, Ring.window_update c le_rfl hlen]
  rfl

-- ------------------------------------------------------- commit and erase

theorem Cons.Ordered.commit (h : s.Ordered) : s.commit.Ordered := ⟨le_rfl, h.room⟩

/-- A committed line can be read. -/
theorem Cons.Ordered.unread_commit (h : s.Ordered) : s.commit.unread = s.unread ++ s.pending := by
  show Ring.window inputBufSize s.buf s.r.toNat (s.e - s.r).toNat = _
  rw [h.pending_length, Ring.window_add]
  exact congrArg (s.unread ++ ·) (Ring.window_congr
    (Ring.cell_eq inputBufSize_dvd s.r s.w).symm)

theorem Cons.pending_commit (s : Cons) : s.commit.pending = [] := by
  refine List.length_eq_zero_iff.mp ?_
  rw [Cons.length_pending, Ring.toNat_sub_eq_zero]
  rfl

/-- Erasing takes off the last byte. -/
theorem Cons.pending_erase (h : s.e ≠ s.w) : s.pending = s.erase.pending ++ [s.back] := by
  have hpos : 0 < (s.e - s.w).toNat := Nat.pos_of_ne_zero fun h0 => h (Ring.toNat_sub_eq_zero.mp h0)
  show Ring.window inputBufSize s.buf s.w.toNat (s.e - s.w).toNat = _
  rw [Ring.toNat_pred_sub hpos, Ring.window_snoc, ← Ring.cell_eq inputBufSize_dvd s.w (s.e - 1)]
  rfl

/-- Erasing stops at what is committed. -/
theorem Cons.Ordered.erase (h : s.Ordered) (hne : s.e ≠ s.w) : s.erase.Ordered := by
  have hpos : 0 < (s.e - s.w).toNat :=
    Nat.pos_of_ne_zero fun h0 => hne (Ring.toNat_sub_eq_zero.mp h0)
  have hlen := h.pending_length
  have hback : (s.e - s.r).toNat = (s.erase.e - s.r).toNat + 1 := Ring.toNat_pred_sub (by omega)
  have hroom := h.room
  refine ⟨?_, ?_⟩
  · show (s.w - s.r).toNat ≤ (s.erase.e - s.r).toNat
    omega
  · show (s.erase.e - s.r).toNat ≤ inputBufSize
    omega

-- ---------------------------------------------------------------- advance

theorem unread_pos (h : s.r ≠ s.w) : 0 < (s.w - s.r).toNat :=
  Nat.pos_of_ne_zero fun h0 => h (Ring.toNat_sub_eq_zero.mp h0).symm

theorem Cons.unread_front (h : s.r ≠ s.w) : s.unread = s.front :: s.advance.unread := by
  show Ring.window inputBufSize s.buf s.r.toNat (s.w - s.r).toNat = _
  rw [Ring.toNat_sub_succ (unread_pos h), Ring.window_cons]
  exact congrArg (s.front :: ·) (Ring.window_congr (Ring.cell_succ inputBufSize_dvd s.r))

theorem Cons.Ordered.advance (h : s.Ordered) (hne : s.r ≠ s.w) : s.advance.Ordered := by
  have hpos := unread_pos hne
  have hle := h.committed
  have hroom := h.room
  have hw : (s.w - s.r).toNat = (s.w - s.advance.r).toNat + 1 := Ring.toNat_sub_succ hpos
  have he : (s.e - s.r).toNat = (s.e - s.advance.r).toNat + 1 := Ring.toNat_sub_succ (by omega)
  refine ⟨?_, ?_⟩
  · show (s.w - s.advance.r).toNat ≤ (s.e - s.advance.r).toNat
    omega
  · show (s.e - s.advance.r).toNat ≤ inputBufSize
    omega

theorem Cons.retreat_advance (s : Cons) : s.advance.retreat = s := by
  unfold Cons.advance Cons.retreat
  simp only [UInt32.add_sub_cancel]

end buffer

-- ======== the events

/-- What an event does to the input typed so far and to the number of its
characters that are committed. -/
def lineStep (l : List UInt8 × Nat) : ConsEvent → List UInt8 × Nat
  | .stored c => (l.1 ++ [c], l.2)
  | .erased => (l.1.dropLast, l.2)
  | .committed => (l.1, l.1.length)
  | _ => l

def lineOf (log : List ConsEvent) : List UInt8 × Nat :=
  log.foldl lineStep ([], 0)

/-- The committed part of the input. -/
def committedInput (log : List ConsEvent) : List UInt8 :=
  (lineOf log).1.take (lineOf log).2

/-- The characters that readers took out of the buffer. -/
def consumed (log : List ConsEvent) : List UInt8 :=
  log.filterMap fun
    | .got _ c => some c
    | .eof _ => some (ctrl 'D')
    | _ => none

/-- The bytes that calls of `consoleread` got. -/
def readBytes (log : List ConsEvent) : List UInt8 :=
  log.filterMap fun
    | .got _ c => some c
    | _ => none

/-- The bytes and the `^D`s of the current or last call of `t`. -/
def ownStep (t : ProcId) (l : List UInt8 × Nat) : ConsEvent → List UInt8 × Nat
  | .called u => if u = t then ([], 0) else l
  | .got u c => if u = t then (l.1 ++ [c], l.2) else l
  | .eof u => if u = t then (l.1, l.2 + 1) else l
  | _ => l

def own (t : ProcId) (log : List ConsEvent) : List UInt8 × Nat :=
  log.foldl (ownStep t) ([], 0)

/-- What is erased was not committed. -/
def ErasesUncommitted (log : List ConsEvent) : ConsEvent → Prop
  | .erased => (lineOf log).2 < (lineOf log).1.length
  | _ => True

/-- A call returns the number of its bytes. It has consumed one `^D` if it
was for some bytes and got none, and no `^D` otherwise. -/
def ReadExact (log : List ConsEvent) : ConsEvent → Prop
  | .returned t target k => k = (own t log).1.length
      ∧ (own t log).2 = if 0 < target ∧ k = 0 then 1 else 0
  | _ => True

def isEof : ConsEvent → Bool
  | .eof _ => true
  | _ => false

/-- A call for some bytes returns with none. -/
def isEmptyRead : ConsEvent → Bool
  | .returned _ target k => 0 < target && k == 0
  | _ => false

theorem lineOf_snoc (log : List ConsEvent) (e : ConsEvent) :
    lineOf (log ++ [e]) = lineStep (lineOf log) e := by
  unfold lineOf
  rw [List.foldl_append]
  rfl

theorem own_snoc (t : ProcId) (log : List ConsEvent) (e : ConsEvent) :
    own t (log ++ [e]) = ownStep t (own t log) e := by
  unfold own
  rw [List.foldl_append]
  rfl

theorem consumed_append (log evs : List ConsEvent) :
    consumed (log ++ evs) = consumed log ++ consumed evs :=
  List.filterMap_append ..

/-- Bytes that are no `^D` are what is left of the consumed characters. -/
theorem readBytes_eq {log : List ConsEvent} (h : ∀ t c, ConsEvent.got t c ∈ log → c ≠ ctrl 'D') :
    readBytes log = (consumed log).filter (· ≠ ctrl 'D') := by
  induction log with
  | nil => rfl
  | cons e log ih =>
    have ih := ih fun t c hc => h t c (List.mem_cons_of_mem _ hc)
    cases e with
    | got t c =>
      have hc := h t c (List.mem_cons_self ..)
      show c :: readBytes log = (c :: consumed log).filter _
      rw [List.filter_cons_of_pos (by simpa using hc), ih]
    | eof t =>
      show readBytes log = (ctrl 'D' :: consumed log).filter _
      rw [List.filter_cons_of_neg (by simp), ih]
    | _ => exact ih

-- ======== the moves

/-- `target` and `n` of the call in progress. -/
def ConsPos.call : ConsPos → Option (Int × Int)
  | .idle => none
  | .outside target n | .inside target n | .asleep target n =>
    some (target, n)

/-- Nothing but the call of `t` changes. -/
def ConsSys.Beside (t : ProcId) (s s' : ConsSys) : Prop :=
  ∀ u, u ≠ t → (s'.pos u).call = (s.pos u).call

/-- No call changes. -/
def ConsSys.SameCalls (s s' : ConsSys) : Prop :=
  ∀ t, (s'.pos t).call = (s.pos t).call

/-- What a step can do, with the events it leaves. -/
inductive ConsMove : ConsSys → List ConsEvent → ConsSys → Prop
  | still {s s' : ConsSys} : s'.cons = s.cons → s.SameCalls s' →
      ConsMove s [] s'
  | trans {s s1 s' : ConsSys} {evs evs' : List ConsEvent} :
      ConsMove s evs s1 → ConsMove s1 evs' s' → ConsMove s (evs ++ evs') s'
  | store {s s' : ConsSys} (c : UInt8) :
      (s.cons.e - s.cons.r).toNat < inputBufSize →
      s'.cons = s.cons.store c → s.SameCalls s' → ConsMove s [.stored c] s'
  | commit {s s' : ConsSys} : s'.cons = s.cons.commit → s.SameCalls s' →
      ConsMove s [.committed] s'
  | erase {s s' : ConsSys} : s.cons.e ≠ s.cons.w →
      s'.cons = s.cons.erase → s.SameCalls s' → ConsMove s [.erased] s'
  | call {s s' : ConsSys} (t : ProcId) (n : Int) : s'.cons = s.cons →
      (s'.pos t).call = some (n, n) → s.Beside t s' →
      ConsMove s [.called t] s'
  | get {s s' : ConsSys} (t : ProcId) (target n : Int) :
      s.cons.r ≠ s.cons.w → s.cons.front ≠ ctrl 'D' →
      s'.cons = s.cons.advance → (s.pos t).call = some (target, n) →
      (s'.pos t).call = some (target, n - 1) → s.Beside t s' →
      ConsMove s [.got t s.cons.front] s'
  | eof {s s' : ConsSys} (t : ProcId) (target n : Int) :
      s.cons.r ≠ s.cons.w → s.cons.front = ctrl 'D' → 0 < n → target ≤ n →
      s'.cons = s.cons.advance → (s.pos t).call = some (target, n) →
      (s'.pos t).call = none → s.Beside t s' →
      ConsMove s [.eof t, .returned t target (target - n)] s'
  | leave {s s' : ConsSys} (t : ProcId) (target n : Int) :
      (0 < target → n < target) → s'.cons = s.cons →
      (s.pos t).call = some (target, n) → (s'.pos t).call = none →
      s.Beside t s' → ConsMove s [.returned t target (target - n)] s'

/-- The events of a run. -/
def consEvents (n : Notes ConsEvent ConsSys) : List ConsEvent :=
  n.map Prod.fst

section moves

variable {s s' : ConsSys} {t : ProcId} {n : Notes ConsEvent ConsSys}

theorem ConsSys.setPos_self (s : ConsSys) (t : ProcId) (a : ConsPos) :
    (s.setPos t a).pos t = a := update_self ..

theorem ConsSys.setPos_of_ne (s : ConsSys) {u : ProcId} (a : ConsPos)
    (h : u ≠ t) : (s.setPos t a).pos u = s.pos u := update_of_ne h ..

theorem ConsSys.beside_setPos (s : ConsSys) (t : ProcId) (a : ConsPos) :
    s.Beside t (s.setPos t a) :=
  fun _ hu => congrArg ConsPos.call (s.setPos_of_ne a hu)

/-- Moving `t` to a place of the same call. -/
theorem ConsSys.sameCalls_setPos {a : ConsPos}
    (h : a.call = (s.pos t).call) : s.SameCalls (s.setPos t a) := by
  intro u
  by_cases hu : u = t
  · rw [hu, s.setPos_self, h]
  · exact s.beside_setPos t a u hu

theorem ConsPos.call_woken (a : ConsPos) : a.woken.call = a.call := by
  cases a <;> rfl

variable {m target : Int} {k : Nat} {c : UInt8}

/-- A call that leaves what it found. -/
theorem move_consoleLeave (hm : 0 < target → m < target) (hc : (s.pos t).call = some (target, m))
    (hrun : consoleLeave t target m s = .ok ((), s', n)) : ConsMove s (consEvents n) s' := by
  cases hrun
  exact .leave t target m hm rfl hc
    (congrArg ConsPos.call (s.setPos_self t .idle)) (s.beside_setPos t .idle)

/-- The state in which a round has taken a byte. -/
theorem move_get (hne : s.cons.r ≠ s.cons.w) (hd : s.cons.front ≠ ctrl 'D')
    (hc : (s.pos t).call = some (target, m)) : ConsMove s [.got t s.cons.front]
      { s.setPos t (.inside target (m - 1)) with cons := s.cons.advance } :=
  .get t target m hne hd rfl hc (congrArg ConsPos.call (s.setPos_self t _)) (s.beside_setPos t _)

/-- A round of `consoleread` is one move. -/
theorem move_readRound (hpos : s.pos t = .inside target m) (hle : m ≤ target)
    (hrun : consolereadRound t target m s = .ok ((), s', n)) : ConsMove s (consEvents n) s' := by
  have hc : (s.pos t).call = some (target, m) := by rw [hpos]; rfl
  unfold consolereadRound at hrun
  rw [get_bind_run] at hrun
  split at hrun
  case isFalse hm =>
    exact move_consoleLeave (fun h => by omega) hc hrun
  case isTrue hm =>
  split at hrun
  case isTrue =>
    cases hrun
    exact .still rfl (ConsSys.sameCalls_setPos hc.symm)
  case isFalse hne =>
  unfold setCons at hrun
  rw [modify_bind_run] at hrun
  split at hrun
  case isTrue hd =>
    split at hrun
    case isTrue hlt =>
      rw [modify_bind_run] at hrun
      simp only [Cons.retreat_advance] at hrun
      exact move_consoleLeave (fun _ => hlt) hc hrun
    case isFalse hge =>
      cases hrun
      exact .eof t target m hne hd hm (by omega) rfl hc
        (congrArg ConsPos.call (s.setPos_self t .idle)) (s.beside_setPos t .idle)
  case isFalse hd =>
    have hget := move_get hne hd hc
    split at hrun
    · -- the byte and the return
      cases hrun
      refine hget.trans (.leave t target (m - 1) (fun _ => by omega) rfl ?_ ?_ fun u hu => ?_)
      · exact congrArg ConsPos.call (s.setPos_self t _)
      · exact congrArg ConsPos.call (s.setPos_self t .idle)
      · exact (s.beside_setPos t .idle u hu).trans (s.beside_setPos t _ u hu).symm
    · cases hrun
      exact hget

theorem move_consoleErase (h : s.cons.e ≠ s.cons.w) (hrun : consoleErase s = .ok ((), s', n)) :
    ConsMove s (consEvents n) s' := by
  cases hrun
  exact .erase h rfl fun _ => rfl

theorem move_killLine (hrun : killLine k s = .ok ((), s', n)) : ConsMove s (consEvents n) s' := by
  induction k generalizing s n with
  | zero =>
    cases hrun
    exact .still rfl fun _ => rfl
  | succ k ih =>
    unfold killLine at hrun
    rw [get_bind_run] at hrun
    split at hrun
    · next hgo =>
      obtain ⟨⟨⟩, s1, n1, n2, herase, hrest, rfl⟩ := bind_ok hrun
      unfold consEvents
      rw [List.map_append]
      exact (move_consoleErase hgo.1 herase).trans (ih hrest)
    · cases hrun
      exact .still rfl fun _ => rfl

theorem move_consoleStore (hrun : consoleStore c s = .ok ((), s', n)) :
    ConsMove s (consEvents n) s' := by
  unfold consoleStore at hrun
  rw [get_bind_run] at hrun
  split at hrun
  case isFalse =>
    cases hrun
    exact .still rfl fun _ => rfl
  case isTrue hgo =>
  have hroom : (s.cons.e - s.cons.r).toNat < inputBufSize := UInt32.lt_iff_toNat_lt.mp hgo.2
  revert hrun
  generalize (if c = carriageReturn then newline else c) = c
  intro hrun
  have hstore : ConsMove s [.stored c] { s with cons := s.cons.store c } :=
    .store c hroom rfl fun _ => rfl
  obtain ⟨⟨⟩, s1, n1, n2, hset, hrest, rfl⟩ := bind_ok hrun
  cases hset
  obtain ⟨⟨⟩, s1, n1, n2, hnote, hend, rfl⟩ := bind_ok hrest
  cases hnote
  rw [get_bind_run] at hend
  split at hend
  · cases hend
    exact hstore.trans (.commit rfl fun u => (s.pos u).call_woken)
  · cases hend
    exact hstore

/-- A typed character is handled in moves. -/
theorem move_consoleintr (hrun : consoleintr c s = .ok ((), s', n)) :
    ConsMove s (consEvents n) s' := by
  unfold consoleintr at hrun
  rw [get_bind_run] at hrun
  split at hrun
  case isTrue => cases hrun
  case isFalse =>
  split at hrun
  case isTrue =>
    cases hrun
    exact .still rfl fun _ => rfl
  case isFalse =>
  split at hrun
  case isTrue => exact move_killLine hrun
  case isFalse =>
  split at hrun
  case isTrue =>
    split at hrun
    · next hne => exact move_consoleErase hne hrun
    · cases hrun
      exact .still rfl fun _ => rfl
  case isFalse => exact move_consoleStore hrun

/-- Every step is a sequence of the moves. -/
theorem cons_move {o : ConsOp} (hrun : o.prog s = .ok ((), s', n))
    (hle : ∀ t target m, (s.pos t).call = some (target, m) → m ≤ target) :
    ConsMove s (consEvents n) s' := by
  cases o with
  | read t m =>
    unfold ConsOp.prog at hrun
    simp only [get_bind_run] at hrun
    cases hpos : s.pos t with
    | idle =>
      simp only [hpos] at hrun
      cases hrun
      exact .call t m rfl (congrArg ConsPos.call (s.setPos_self t _)) (s.beside_setPos t _)
    | _ =>
      simp only [hpos] at hrun
      cases hrun
  | acquire t =>
    unfold ConsOp.prog at hrun
    simp only [get_bind_run] at hrun
    cases hpos : s.pos t with
    | outside target m =>
      cases hlock : s.lock with
      | none =>
        simp only [hpos, hlock] at hrun
        cases hrun
        refine .still rfl (ConsSys.sameCalls_setPos ?_)
        rw [hpos]
        rfl
      | some u =>
        simp only [hpos, hlock] at hrun
        cases hrun
    | _ =>
      simp only [hpos] at hrun
      cases hrun
  | round t =>
    unfold ConsOp.prog at hrun
    simp only [get_bind_run] at hrun
    cases hpos : s.pos t with
    | inside target m =>
      simp only [hpos] at hrun
      refine move_readRound hpos (hle t target m ?_) hrun
      rw [hpos]
      rfl
    | _ =>
      simp only [hpos] at hrun
      cases hrun
  | intr c => exact move_consoleintr hrun

end moves

-- ======== the input

/-- The input is what was consumed, then what can be read, then what can
be edited. -/
structure Lined (log : List ConsEvent) (c : Cons) : Prop where
  order : c.Ordered
  input : (lineOf log).1 = consumed log ++ (c.unread ++ c.pending)
  count : (lineOf log).2 = (consumed log ++ c.unread).length
  erases : Conc.Traced ErasesUncommitted log

namespace Lined

variable {log : List ConsEvent} {s : Cons} (h : Lined log s)

include h

theorem committedInput_eq : committedInput log = consumed log ++ s.unread := by
  unfold committedInput
  rw [h.input, h.count, ← List.append_assoc]
  exact List.take_left

theorem store (c : UInt8) (hroom : (s.e - s.r).toNat < inputBufSize) :
    Lined (log ++ [.stored c]) (s.store c) := by
  have hc : consumed (log ++ [.stored c]) = consumed log := by
    rw [consumed_append]
    exact List.append_nil _
  refine ⟨h.order.store c hroom, ?_, ?_, h.erases.snoc trivial⟩
  · rw [lineOf_snoc, hc, h.order.unread_store c hroom, h.order.pending_store c hroom]
    show (lineOf log).1 ++ [c] = _
    rw [h.input, List.append_assoc, List.append_assoc]
  · rw [lineOf_snoc, hc, h.order.unread_store c hroom]
    exact h.count

theorem commit : Lined (log ++ [.committed]) s.commit := by
  have hc : consumed (log ++ [.committed]) = consumed log := by
    rw [consumed_append]
    exact List.append_nil _
  refine ⟨h.order.commit, ?_, ?_, h.erases.snoc trivial⟩
  · rw [lineOf_snoc, hc, h.order.unread_commit, s.pending_commit, List.append_nil]
    exact h.input
  · rw [lineOf_snoc, hc, h.order.unread_commit]
    exact congrArg List.length h.input

theorem erase (hne : s.e ≠ s.w) : Lined (log ++ [.erased]) s.erase := by
  have hc : consumed (log ++ [.erased]) = consumed log := by
    rw [consumed_append]
    exact List.append_nil _
  have hline : (lineOf log).1 = (consumed log ++ (s.unread ++ s.erase.pending)) ++ [s.back] := by
    rw [h.input, Cons.pending_erase hne, List.append_assoc, List.append_assoc]
  refine ⟨h.order.erase hne, ?_, ?_, h.erases.snoc ?_⟩
  · rw [lineOf_snoc, hc]
    show (lineOf log).1.dropLast = _
    rw [hline, List.dropLast_concat]
    rfl
  · rw [lineOf_snoc, hc]
    exact h.count
  · show (lineOf log).2 < (lineOf log).1.length
    rw [h.count, hline]
    simp only [List.length_append, List.length_singleton]
    omega

variable {e : ConsEvent}

/-- A reader consumes the character in front. -/
theorem take (hne : s.r ≠ s.w)
    (hl : lineStep (lineOf log) e = lineOf log) (he : consumed [e] = [s.front])
    (ht : ErasesUncommitted log e) : Lined (log ++ [e]) s.advance := by
  have hc : consumed (log ++ [e]) ++ s.advance.unread = consumed log ++ s.unread := by
    rw [consumed_append, he, Cons.unread_front hne, List.append_assoc]
    rfl
  refine ⟨h.order.advance hne, ?_, ?_, h.erases.snoc ht⟩
  · rw [lineOf_snoc, hl, h.input, ← List.append_assoc, ← List.append_assoc, hc]
    rfl
  · rw [lineOf_snoc, hl, hc]
    exact h.count

/-- An event that is about neither the input nor the buffer. -/
theorem other (hl : lineStep (lineOf log) e = lineOf log)
    (he : consumed [e] = []) (ht : ErasesUncommitted log e) : Lined (log ++ [e]) s := by
  have hc : consumed (log ++ [e]) = consumed log := by
    rw [consumed_append, he, List.append_nil]
  refine ⟨h.order, ?_, ?_, h.erases.snoc ht⟩
  · rw [lineOf_snoc, hl, hc]
    exact h.input
  · rw [lineOf_snoc, hl, hc]
    exact h.count

omit h

end Lined

-- ======== the calls

/-- The calls know what they got, and return it. -/
structure Answered (log : List ConsEvent) (s : ConsSys) : Prop where
  plain : ∀ t c, ConsEvent.got t c ∈ log → c ≠ ctrl 'D'
  calls : ∀ t target n, (s.pos t).call = some (target, n) →
    ((own t log).1.length : Int) = target - n ∧ (own t log).2 = 0
  returns : Conc.Traced ReadExact log
  eofs : log.countP isEof = log.countP isEmptyRead

namespace Answered

variable {log : List ConsEvent} {s s' : ConsSys} {t : ProcId} {target n : Int}

variable {e : ConsEvent} (h : Answered log s)

include h

theorem plain_snoc (he : ∀ t c, e = .got t c → c ≠ ctrl 'D') (t : ProcId) (c : UInt8)
    (hc : ConsEvent.got t c ∈ log ++ [e]) : c ≠ ctrl 'D' := by
  rcases List.mem_append.mp hc with hold | hnew
  · exact h.plain t c hold
  · exact he t c (List.mem_singleton.mp hnew).symm

theorem eofs_snoc (he : isEof e = isEmptyRead e) :
    (log ++ [e]).countP isEof = (log ++ [e]).countP isEmptyRead := by
  rw [List.countP_append, List.countP_append, h.eofs, List.countP_singleton,
    List.countP_singleton, he]

/-- The calls of the other processes, when an event of `t` happens. -/
theorem others (he : ∀ u, u ≠ t → ownStep u (own u log) e = own u log) (hb : s.Beside t s')
    (ht : ∀ target n, (s'.pos t).call = some (target, n) →
      ((own t (log ++ [e])).1.length : Int) = target - n ∧ (own t (log ++ [e])).2 = 0)
    (u : ProcId) (target n : Int) (hu : (s'.pos u).call = some (target, n)) :
    ((own u (log ++ [e])).1.length : Int) = target - n ∧ (own u (log ++ [e])).2 = 0 := by
  by_cases hut : u = t
  · rw [hut] at hu ⊢
    exact ht target n hu
  · rw [hb u hut] at hu
    rw [own_snoc, he u hut]
    exact h.calls u target n hu

theorem sameCalls (hs : s.SameCalls s') : Answered log s' := by
  refine ⟨h.plain, fun t target n ht => ?_, h.returns, h.eofs⟩
  rw [hs t] at ht
  exact h.calls t target n ht

/-- A call has got no more than it asked for. -/
theorem n_le (hc : (s.pos t).call = some (target, n)) : n ≤ target := by
  have hlen := (h.calls t target n hc).1
  omega

/-- What is typed is no concern of the calls. -/
theorem typed (hs : s.SameCalls s') (hown : ∀ u l, ownStep u l e = l) (hgot : ∀ t c, e ≠ .got t c)
    (hr : ReadExact log e) (he : isEof e = isEmptyRead e) : Answered (log ++ [e]) s' := by
  refine ⟨h.plain_snoc fun t c hc => absurd hc (hgot t c),
    fun t target n ht => ?_, h.returns.snoc hr, h.eofs_snoc he⟩
  rw [hs t] at ht
  rw [own_snoc, hown]
  exact h.calls t target n ht

theorem call (hc : (s'.pos t).call = some (n, n))
    (hb : s.Beside t s') : Answered (log ++ [.called t]) s' := by
  refine ⟨h.plain_snoc (fun _ _ he => by cases he),
    h.others (fun u hu => if_neg fun heq => hu heq.symm) hb
      fun target m hm => ?_, h.returns.snoc trivial, h.eofs_snoc rfl⟩
  rw [hc] at hm
  cases hm
  have hnew : own t (log ++ [.called t]) = ([], 0) := by
    rw [own_snoc]
    exact if_pos rfl
  rw [hnew]
  exact ⟨(Int.sub_self n).symm, rfl⟩

theorem got {c : UInt8} (hd : c ≠ ctrl 'D') (hc : (s.pos t).call = some (target, n))
    (hc' : (s'.pos t).call = some (target, n - 1)) (hb : s.Beside t s') :
    Answered (log ++ [.got t c]) s' := by
  refine ⟨h.plain_snoc (fun _ _ he => by cases he; exact hd),
    h.others (fun u hu => if_neg fun heq => hu heq.symm) hb
      fun target' m hm => ?_, h.returns.snoc trivial, h.eofs_snoc rfl⟩
  rw [hc'] at hm
  cases hm
  obtain ⟨hlen, heof⟩ := h.calls t target n hc
  have hnew : own t (log ++ [.got t c]) = ((own t log).1 ++ [c], (own t log).2) := by
    rw [own_snoc]
    exact if_pos rfl
  rw [hnew]
  refine ⟨?_, heof⟩
  rw [List.length_append, List.length_singleton]
  push_cast
  omega

/-- A call that returns something, or was for nothing. -/
theorem leave (hn : 0 < target → n < target)
    (hc : (s.pos t).call = some (target, n)) (hc' : (s'.pos t).call = none) (hb : s.Beside t s') :
    Answered (log ++ [.returned t target (target - n)]) s' := by
  obtain ⟨hlen, heof⟩ := h.calls t target n hc
  have hsome : ¬ (0 < target ∧ target - n = 0) := by omega
  refine ⟨h.plain_snoc (fun _ _ he => by cases he),
    h.others (fun _ _ => rfl) hb fun target' m hm => ?_,
    h.returns.snoc ⟨hlen.symm, ?_⟩, h.eofs_snoc ?_⟩
  · rw [hc'] at hm
    cases hm
  · rw [if_neg hsome]
    exact heof
  · show false = (decide (0 < target) && target - n == 0)
    rw [eq_comm, Bool.and_eq_false_iff]
    by_cases hpos : 0 < target
    · exact .inr (beq_false_of_ne fun hz => hsome ⟨hpos, hz⟩)
    · exact .inl (decide_eq_false hpos)

/-- A call that consumes a `^D` got nothing and returns nothing. -/
theorem eof (hpos : 0 < n) (hge : target ≤ n)
    (hc : (s.pos t).call = some (target, n)) (hc' : (s'.pos t).call = none) (hb : s.Beside t s') :
    Answered (log ++ [.eof t, .returned t target (target - n)]) s' := by
  obtain ⟨hlen, heof⟩ := h.calls t target n hc
  obtain rfl : target = n := Int.le_antisymm hge (h.n_le hc)
  have hsnoc : log ++ [.eof t, .returned t target (target - target)]
      = (log ++ [.eof t]) ++ [.returned t target (target - target)] := by
    rw [List.append_assoc]
    rfl
  have hown : own t (log ++ [.eof t]) = ((own t log).1, (own t log).2 + 1) := by
    rw [own_snoc]
    exact if_pos rfl
  have hreturns : Conc.Traced ReadExact (log ++ [.eof t]) := h.returns.snoc trivial
  rw [hsnoc]
  refine ⟨fun u c hu => ?_, fun u target' m hm => ?_, hreturns.snoc ⟨?_, ?_⟩, ?_⟩
  · grind [h.plain]
  · by_cases hut : u = t
    · rw [hut, hc'] at hm
      cases hm
    · rw [hb u hut] at hm
      have hsame : own u (log ++ [.eof t]) = own u log := by
        rw [own_snoc]
        exact if_neg fun heq => hut heq.symm
      rw [own_snoc, hsame]
      exact h.calls u target' m hm
  · rw [hown]
    exact hlen.symm
  · rw [hown, if_pos ⟨hpos, Int.sub_self target⟩, heof]
  · rw [← hsnoc, List.countP_append, List.countP_append, h.eofs]
    simp [List.countP_cons, isEof, isEmptyRead, hpos]

end Answered

-- ======== the system

section system

variable {s s' : ConsSys} {log evs : List ConsEvent}

/-- Every move keeps the line discipline. -/
theorem Lined.move (hm : ConsMove s evs s') (h : Lined log s.cons) :
    Lined (log ++ evs) s'.cons := by
  induction hm generalizing log with
  | still hcons _ =>
    rw [List.append_nil, hcons]
    exact h
  | trans _ _ ih ih' =>
    rw [← List.append_assoc]
    exact ih' (ih h)
  | store c hroom hcons _ =>
    rw [hcons]
    exact h.store c hroom
  | commit hcons _ =>
    rw [hcons]
    exact h.commit
  | erase hne hcons _ =>
    rw [hcons]
    exact h.erase hne
  | call t n hcons _ _ =>
    rw [hcons]
    exact h.other rfl rfl trivial
  | get t target n hne _ hcons _ _ _ =>
    rw [hcons]
    exact h.take hne rfl rfl trivial
  | eof t target n hne hd _ _ hcons _ _ _ =>
    have htake : Lined (log ++ [.eof t]) _ :=
      h.take hne rfl (congrArg (fun c => [c]) hd.symm) trivial
    rw [hcons, ← List.singleton_append, ← List.append_assoc]
    exact htake.other rfl rfl trivial
  | leave t target n _ hcons _ _ _ =>
    rw [hcons]
    exact h.other rfl rfl trivial

/-- Every move keeps the answers of the calls. -/
theorem Answered.move (hm : ConsMove s evs s') (h : Answered log s) : Answered (log ++ evs) s' := by
  induction hm generalizing log with
  | still _ hs =>
    rw [List.append_nil]
    exact h.sameCalls hs
  | trans _ _ ih ih' =>
    rw [← List.append_assoc]
    exact ih' (ih h)
  | store c _ _ hs => exact h.typed hs (fun _ _ => rfl) (fun _ _ => nofun) trivial rfl
  | commit _ hs => exact h.typed hs (fun _ _ => rfl) (fun _ _ => nofun) trivial rfl
  | erase _ _ hs => exact h.typed hs (fun _ _ => rfl) (fun _ _ => nofun) trivial rfl
  | call t n _ hc hb => exact h.call hc hb
  | get t target n _ hd _ hc hc' hb => exact h.got hd hc hc' hb
  | eof t target n _ _ hpos hge _ hc hc' hb => exact h.eof hpos hge hc hc' hb
  | leave t target n hn _ hc hc' hb => exact h.leave hn hc hc' hb

end system

/-- Both invariants hold in every run. -/
theorem ConsRuns.edited {n : Notes ConsEvent ConsSys} {s : ConsSys} (h : ConsRuns n s) :
    Lined (consEvents n) s.cons ∧ Answered (consEvents n) s := by
  induction h with
  | @init s hs =>
    have hr : s.cons.w - s.cons.r = 0 := by rw [hs.w, UInt32.sub_self]
    have he : s.cons.e - s.cons.r = 0 := by rw [hs.e, UInt32.sub_self]
    have hew : s.cons.e - s.cons.w = 0 := by
      rw [hs.e, hs.w, UInt32.sub_self]
    have hu : s.cons.unread = [] := by
      rw [← List.length_eq_zero_iff, Cons.length_unread, hr]
      rfl
    have hp : s.cons.pending = [] := by
      rw [← List.length_eq_zero_iff, Cons.length_pending, hew]
      rfl
    refine ⟨⟨⟨by rw [hr, he], by rw [he]; exact Nat.zero_le _⟩, ?_, ?_,
      .nil⟩, ⟨fun _ _ => nofun, fun t target n ht => ?_, .nil, rfl⟩⟩
    · rw [hu, hp]
      rfl
    · rw [hu]
      rfl
    · rw [hs.pos t] at ht
      cases ht
  | step o _ hrun _ ih =>
    obtain ⟨hl, hs⟩ := ih
    have hm := cons_move hrun fun t target m ht => hs.n_le ht
    unfold consEvents
    rw [List.map_append]
    exact ⟨hl.move hm, hs.move hm⟩

/-- In every state of every run: the indices are in order; what was erased
was not committed; the committed input is what was consumed followed by
what the cells from `r` to `w` hold; the bytes read are a beginning of the
committed input without its `^D`s; each call returned the number of its
bytes, and consumed a `^D` exactly if it was for some and got none. -/
theorem console_line_buffer {n : Notes ConsEvent ConsSys} {s : ConsSys} (h : ConsRuns n s) :
    s.cons.w - s.cons.r ≤ s.cons.e - s.cons.r ∧ s.cons.e - s.cons.r ≤ UInt32.ofNat inputBufSize
      ∧ Conc.Traced ErasesUncommitted (consEvents n)
      ∧ committedInput (consEvents n) = consumed (consEvents n) ++ s.cons.unread
      ∧ readBytes (consEvents n) <+: (committedInput (consEvents n)).filter (· ≠ ctrl 'D')
      ∧ Conc.Traced ReadExact (consEvents n)
      ∧ (consEvents n).countP isEof = (consEvents n).countP isEmptyRead := by
  obtain ⟨hl, hs⟩ := h.edited
  refine ⟨UInt32.le_iff_toNat_le.mpr hl.order.committed,
    UInt32.le_iff_toNat_le.mpr hl.order.room, hl.erases,
    hl.committedInput_eq, ?_, hs.returns, hs.eofs⟩
  rw [hl.committedInput_eq, readBytes_eq hs.plain, List.filter_append]
  exact List.prefix_append ..

/-- A console whose indices are about to wrap. -/
def oldConsole : ConsSys :=
  { cons := ⟨fun _ => 0, 0xFFFFFFFF, 0xFFFFFFFF, 0xFFFFFFFF⟩
    lock := none
    pos := fun _ => .idle }

/-- Process 1 waits for a line; `ab`, delete, `c` and return are typed. It
reads two bytes, process 2 the third one. Then `^D` comes, and the next
call of process 1 returns with nothing. -/
def typeLine : List ConsOp :=
  [.read 1 2, .acquire 1, .round 1, .intr 97, .intr 98, .intr delKey,
    .intr 99, .intr 13, .acquire 1, .round 1, .round 1, .round 1,
    .read 2 5, .acquire 2, .round 2, .intr (ctrl 'D'), .read 1 4, .acquire 1,
    .round 1]

theorem console_line_buffer_typed : ∃ n s, ConsRuns n s ∧ s.cons.r = 3
      ∧ readBytes (consEvents n) = [97, 99, 10]
      ∧ readBytes (consEvents n) <+: (committedInput (consEvents n)).filter (· ≠ ctrl 'D')
      ∧ (consEvents n).countP isEof = 1
      ∧ (consEvents n).countP isEmptyRead = 1 := by
  have hfresh : ConsRuns [] oldConsole := .init ⟨rfl, rfl, rfl, fun _ => rfl⟩
  obtain ⟨n, s, hr, hat, hgot, hone⟩ := hfresh.played (P := fun n s => s.cons.r = 3
    ∧ readBytes (consEvents n) = [97, 99, 10] ∧ (consEvents n).countP isEof = 1)
    (fun _ _ _ _ _ => trivial) typeLine (by decide +kernel)
  obtain ⟨-, -, -, -, hread, -, heof⟩ := console_line_buffer hr
  exact ⟨n, s, hr, hat, hgot, hread, hone, heof.symm.trans hone⟩

end GemOS
