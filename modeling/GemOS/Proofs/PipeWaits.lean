/-
Nobody sleeps at a pipe without a reason, if writers are not killed
between two bytes.

A reader may sleep while the pipe is empty and has a writing end, a writer
while the pipe is full and has a reading end. Within `pi->lock` that need
not hold: `pipewrite` stores a byte first and wakes the readers at its end.
`Waits` says who owes the wakeup: for the readers a writer that is still
going to come to its end, for the writers a reader that copies.

A writer that finds itself killed leaves the loop without that wakeup. If
it has stored a byte, the readers sleep on beside it (`killed_mid_write`).
-/
import GemOS.Proofs.PipeStream

namespace GemOS

open Function Prog

-- ======== who sleeps, and who owes

namespace PipeSys

def Asleep (s : PipeSys) (chan : PipeChan) : Prop :=
  ∃ u c, s.pos u = .asleep chan c

/-- The process is in the loop of `pipewrite`. -/
def Writing (s : PipeSys) (t : ProcId) : Prop :=
  ∃ src n i, s.pos t = .inside (.write src n i)

/-- It is in the copying loop of `piperead`. -/
def Copying (s : PipeSys) (t : ProcId) : Prop :=
  ∃ dst n i, s.pos t = .inside (.copy dst n i)

/-- The next round of the process stores a byte, if nothing stops it. -/
def Storing (s : PipeSys) (t : ProcId) : Prop :=
  ∃ src n i ch, s.pos t = .inside (.write src n i) ∧ (i : Int) < n
    ∧ s.pipe.level ≠ pipesize ∧ src i = some ch

/-- A writer that will go on and wake the readers. -/
def WillWake (s : PipeSys) (t : ProcId) : Prop :=
  s.Writing t ∧ s.killed t = false ∧ s.pipe.readopen = true

/-- Sleepers have a reason, or somebody owes them a wakeup. -/
structure Waits (s : PipeSys) : Prop where
  held : ∀ t c, s.pos t = .inside c → s.lock = some t
  readers : s.Asleep .nread → s.pipe.writeopen = true ∧ (s.pipe.level = 0 ∨ ∃ t, s.WillWake t)
  writers : s.Asleep .nwrite → s.pipe.readopen = true ∧ (s.pipe.level = pipesize ∨ ∃ t, s.Copying t)

end PipeSys

-- ======== changes of place

variable {s s' : PipeSys} {t u : ProcId} {chan : PipeChan} {a : PipePos} {c : PipeCall}
  {n : Notes PipeEvent PipeSys} {src : Nat → Option UInt8} {dst : Nat → Bool} {k : Int} {i : Nat}

/-- A process that goes elsewhere than to sleep adds no sleeper. -/
theorem PipeSys.Asleep.of_setPos (h : (s.setPos t a).Asleep chan)
    (ha : ∀ c, a ≠ .asleep chan c) : s.Asleep chan := by
  obtain ⟨u, c, hu⟩ := h
  by_cases hut : u = t
  · rw [hut, setPos_self] at hu
    exact absurd hu (ha c)
  · refine ⟨u, c, ?_⟩
    rw [← hu]
    exact (update_of_ne hut a s.pos).symm

theorem PipePos.woken_eq_asleep {ch : PipeChan}
    (h : a.woken chan = .asleep ch c) : ch ≠ chan ∧ a = .asleep ch c := by
  cases a with
  | asleep ch' c' =>
    change (if ch' = chan then PipePos.outside c' else .asleep ch' c') = _ at h
    split at h
    · cases h
    · grind
  | _ => cases h

theorem PipePos.woken_eq_inside (h : a.woken chan = .inside c) : a = .inside c := by
  cases a with
  | asleep ch' c' =>
    change (if ch' = chan then PipePos.outside c' else .asleep ch' c') = _ at h
    split at h <;> cases h
  | _ => exact h

/-- Nobody sleeps on a channel after its wakeup. -/
theorem PipeSys.not_asleep_wakeup (s : PipeSys) (chan : PipeChan) :
    ¬ (s.wakeup chan).Asleep chan := by
  rintro ⟨u, c, hu⟩
  exact (PipePos.woken_eq_asleep hu).1 rfl

theorem PipeSys.Asleep.of_wakeup {ch : PipeChan} (h : (s.wakeup chan).Asleep ch) : s.Asleep ch := by
  obtain ⟨u, c, hu⟩ := h
  exact ⟨u, c, (PipePos.woken_eq_asleep hu).2⟩

theorem not_writing_setPos (ha : ∀ src k i, a ≠ .inside (.write src k i)) :
    ¬ (s.setPos t a).Writing t := by
  rintro ⟨src, k, i, hpos⟩
  rw [setPos_self] at hpos
  exact ha src k i hpos

/-- Who is inside after `t` went to a place. -/
theorem inside_setPos (h : (s.setPos t a).pos u = .inside c) :
    (u = t ∧ a = .inside c) ∨ (u ≠ t ∧ s.pos u = .inside c) := by
  by_cases hut : u = t
  · rw [hut, setPos_self] at h
    exact .inl ⟨hut, h⟩
  · refine .inr ⟨hut, ?_⟩
    rw [← h]
    exact (update_of_ne hut a s.pos).symm

-- ======== the lock holder

namespace PipeSys.Waits

variable (h : s.Waits)

include h

/-- Two processes are not inside at once. -/
theorem alone (ht : s.pos t = .inside c) {d : PipeCall} (hu : s.pos u = .inside d) : u = t :=
  Option.some.inj ((h.held u d hu).symm.trans (h.held t c ht))

/-- The readers have their reason if the one inside owes them nothing. -/
theorem readers_inside (ht : s.pos t = .inside c)
    (hn : ¬ s.WillWake t) (ha : s.Asleep .nread) : s.pipe.writeopen = true ∧ s.pipe.level = 0 := by
  obtain ⟨hopen, hempty | ⟨u, hu⟩⟩ := h.readers ha
  · exact ⟨hopen, hempty⟩
  · obtain ⟨src, n, i, hpos⟩ := hu.1
    rw [h.alone ht hpos] at hu
    exact absurd hu hn

theorem writers_inside (ht : s.pos t = .inside c) (hn : ¬ s.Copying t) (ha : s.Asleep .nwrite) :
    s.pipe.readopen = true ∧ s.pipe.level = pipesize := by
  obtain ⟨hopen, hfull | ⟨u, hu⟩⟩ := h.writers ha
  · exact ⟨hopen, hfull⟩
  · obtain ⟨dst, n, i, hpos⟩ := id hu
    rw [h.alone ht hpos] at hu
    exact absurd hu hn

/-- With the lock free, every sleeper has its reason. -/
theorem readers_free (hfree : s.lock = none) (ha : s.Asleep .nread) :
    s.pipe.writeopen = true ∧ s.pipe.level = 0 := by
  obtain ⟨hopen, hempty | ⟨u, ⟨src, n, i, hu⟩, -⟩⟩ := h.readers ha
  · exact ⟨hopen, hempty⟩
  · have hheld := h.held u _ hu
    rw [hfree] at hheld
    cases hheld

theorem writers_free (hfree : s.lock = none) (ha : s.Asleep .nwrite) :
    s.pipe.readopen = true ∧ s.pipe.level = pipesize := by
  obtain ⟨hopen, hfull | ⟨u, dst, n, i, hu⟩⟩ := h.writers ha
  · exact ⟨hopen, hfull⟩
  · have hheld := h.held u _ hu
    rw [hfree] at hheld
    cases hheld

omit h in
/-- Sleepers that have their reasons need nobody. -/
theorem of_reasons (hh : ∀ t c, s.pos t = .inside c → s.lock = some t)
    (hr : s.Asleep .nread → s.pipe.writeopen = true ∧ s.pipe.level = 0)
    (hw : s.Asleep .nwrite → s.pipe.readopen = true ∧ s.pipe.level = pipesize) : s.Waits :=
  ⟨hh, fun ha => ⟨(hr ha).1, .inl (hr ha).2⟩, fun ha => ⟨(hw ha).1, .inl (hw ha).2⟩⟩

/-- Moving within the lock. -/
theorem held_setPos (ht : s.pos t = .inside c)
    {d : PipeCall} (hu : (s.setPos t a).pos u = .inside d) : s.lock = some u := by
  rcases inside_setPos hu with ⟨rfl, -⟩ | ⟨-, hd⟩
  · exact h.held u c ht
  · exact h.held u d hd

theorem wakeup (chan : PipeChan) : (s.wakeup chan).Waits := by
  have hin : ∀ {u d}, s.pos u = .inside d → (s.wakeup chan).pos u = .inside d := by
    intro u d hu
    show (s.pos u).woken chan = _
    rw [hu]
    rfl
  refine ⟨fun u d hu => h.held u d (PipePos.woken_eq_inside hu), fun ha => ?_, fun ha => ?_⟩
  · obtain ⟨hopen, hempty | ⟨u, ⟨src, n, i, hu⟩, hk⟩⟩ := h.readers ha.of_wakeup
    · exact ⟨hopen, .inl hempty⟩
    · exact ⟨hopen, .inr ⟨u, ⟨src, n, i, hin hu⟩, hk⟩⟩
  · obtain ⟨hopen, hfull | ⟨u, dst, n, i, hu⟩⟩ := h.writers ha.of_wakeup
    · exact ⟨hopen, .inl hfull⟩
    · exact ⟨hopen, .inr ⟨u, dst, n, i, hin hu⟩⟩

/-- The one inside goes out and gives the lock back: no debts are left. -/
theorem depart (ht : s.pos t = .inside c) (ha : ∀ d, a ≠ .inside d)
    (hr : (s.setPos t a).Asleep .nread → s.pipe.writeopen = true ∧ s.pipe.level = 0)
    (hw : (s.setPos t a).Asleep .nwrite → s.pipe.readopen = true ∧ s.pipe.level = pipesize) :
    PipeSys.Waits { s.setPos t a with lock := none } := by
  refine of_reasons (fun u d hu => ?_) hr hw
  rcases inside_setPos hu with ⟨-, hd⟩ | ⟨hut, hd⟩
  · exact absurd hd (ha d)
  · exact absurd (h.alone ht hd) hut

/-- It returns; the sleepers must have their reasons. -/
theorem leave {r : Int} (ht : s.pos t = .inside c)
    (hr : s.Asleep .nread → s.pipe.writeopen = true ∧ s.pipe.level = 0)
    (hw : s.Asleep .nwrite → s.pipe.readopen = true ∧ s.pipe.level = pipesize)
    (hrun : pipeLeave t r s = .ok ((), s', n)) : s'.Waits ∧ ¬ s'.Writing t := by
  cases hrun
  refine ⟨h.depart ht nofun (fun ha => hr (ha.of_setPos nofun))
    (fun ha => hw (ha.of_setPos nofun)), not_writing_setPos nofun⟩

end PipeSys.Waits

-- ======== the rounds

theorem inside_wakeup (ht : s.pos t = .inside c) : (s.wakeup chan).pos t = .inside c := by
  show (s.pos t).woken chan = _
  rw [ht]
  rfl

/-- What a round leaves: a writer that goes on has stored a byte, and
woken nobody. -/
def Rounded (t : ProcId) (s s' : PipeSys) : Prop :=
  s'.Waits ∧ (s'.Writing t → s.Storing t ∧ (s'.Asleep .nread → s.Asleep .nread))

theorem Rounded.of_leave (h : s'.Waits ∧ ¬ s'.Writing t) : Rounded t s s' :=
  ⟨h.1, fun hw => absurd hw h.2⟩

theorem not_copying (ht : s.pos t = .inside (.write src k i)) : ¬ s.Copying t := by
  rintro ⟨dst, k', j, hpos⟩
  rw [ht] at hpos
  cases hpos

theorem not_willWake (ht : s.pos t = .inside c)
    (hc : ∀ src k i, c ≠ .write src k i) : ¬ s.WillWake t := by
  rintro ⟨⟨src, k, i, hpos⟩, -⟩
  rw [ht] at hpos
  cases hpos
  exact hc src k i rfl

/-- The end of `pipewrite` wakes the readers. -/
theorem rounded_writeDone {j : Nat} (h : s.Waits) (ht : s.pos t = .inside (.write src k i))
    (hrun : pipewriteDone t j s = .ok ((), s', n)) : Rounded t s s' := by
  unfold pipewriteDone at hrun
  rw [modify_bind_run] at hrun
  refine .of_leave ((h.wakeup .nread).leave (inside_wakeup ht)
    (fun ha => absurd ha (s.not_asleep_wakeup .nread)) (fun ha => ?_) hrun)
  exact h.writers_inside ht (not_copying ht) ha.of_wakeup

theorem rounded_write (h : s.Waits) (ht : s.pos t = .inside (.write src k i))
    (hrun : pipewriteRound t src k i s = .ok ((), s', n)) : Rounded t s s' := by
  unfold pipewriteRound at hrun
  rw [get_bind_run] at hrun
  split at hrun
  case isFalse => exact rounded_writeDone h ht hrun
  case isTrue hi =>
  split at hrun
  case isTrue hstop =>
    -- no wakeup, but also no reader that waits for one
    refine .of_leave (h.leave ht (h.readers_inside ht ?_)
      (h.writers_inside ht (not_copying ht)) hrun)
    rintro ⟨-, hk, hopen⟩
    rcases hstop with hclosed | hkilled
    · rw [hopen] at hclosed
      cases hclosed
    · rw [hk] at hkilled
      cases hkilled
  case isFalse hgo =>
  have hopen : s.pipe.readopen = true := by grind
  split at hrun
  case isTrue hfull =>
    cases hrun
    have hin := @inside_wakeup s t .nread _ ht
    refine .of_leave ⟨(h.wakeup .nread).depart hin nofun
      (fun ha => ?_) (fun _ => ⟨hopen, s.pipe.full_iff.mp hfull⟩), not_writing_setPos nofun⟩
    exact absurd (ha.of_setPos nofun) (s.not_asleep_wakeup .nread)
  case isFalse hroom =>
  have hlevel : s.pipe.level ≠ pipesize := fun he => hroom (s.pipe.full_iff.mpr he)
  cases hsrc : src i with
  | none =>
    simp only [hsrc] at hrun
    exact rounded_writeDone h ht hrun
  | some ch =>
    simp only [hsrc] at hrun
    cases hrun
    have hshrink : ∀ chan, (s.setPos t (.inside (.write src k (i + 1)))).Asleep chan →
        s.Asleep chan :=
      fun chan ha => ha.of_setPos nofun
    refine ⟨⟨fun u d hu => h.held_setPos ht hu, fun ha => ?_, fun ha => ?_⟩, fun _ =>
      ⟨⟨src, k, i, ch, ht, hi, hlevel, hsrc⟩, hshrink .nread⟩⟩
    · -- the wakeup is still owed
      refine ⟨(h.readers (hshrink .nread ha)).1, .inr ⟨t, ?_, ?_, hopen⟩⟩
      · exact ⟨src, k, i + 1, setPos_self s t _⟩
      · cases hk : s.killed t with
        | false => exact hk
        | true => exact absurd (.inr hk) hgo
    · exact absurd (h.writers_inside ht (not_copying ht) (hshrink .nwrite ha)).2 hlevel

theorem rounded_await (h : s.Waits) (ht : s.pos t = .inside (.await dst k))
    (hrun : pipereadAwait t dst k s = .ok ((), s', n)) : Rounded t s s' := by
  have hnone : ¬ s.WillWake t := not_willWake ht nofun
  have hncopy : ¬ s.Copying t := by
    rintro ⟨dst', k', j, hpos⟩
    rw [ht] at hpos
    cases hpos
  unfold pipereadAwait at hrun
  rw [get_bind_run] at hrun
  split at hrun
  case isTrue hwait =>
    split at hrun
    · exact .of_leave (h.leave ht (h.readers_inside ht hnone) (h.writers_inside ht hncopy) hrun)
    · cases hrun
      refine .of_leave ⟨h.depart ht nofun
        (fun _ => ⟨hwait.2, s.pipe.empty_iff.mp hwait.1⟩) (fun ha => ?_), not_writing_setPos nofun⟩
      exact h.writers_inside ht hncopy (ha.of_setPos nofun)
  case isFalse =>
    cases hrun
    exact .of_leave ⟨.of_reasons (fun u d hu => h.held_setPos ht hu)
      (fun ha => h.readers_inside ht hnone (ha.of_setPos nofun))
      fun ha => h.writers_inside ht hncopy (ha.of_setPos nofun), not_writing_setPos nofun⟩

/-- The end of `piperead` wakes the writers. -/
theorem rounded_readDone {r : Int} (h : s.Waits) (ht : s.pos t = .inside (.copy dst k i))
    (hrun : pipereadDone t r s = .ok ((), s', n)) : Rounded t s s' := by
  unfold pipereadDone at hrun
  rw [modify_bind_run] at hrun
  refine .of_leave ((h.wakeup .nwrite).leave (inside_wakeup ht)
    (fun ha => ?_) (fun ha => absurd ha (s.not_asleep_wakeup .nwrite)) hrun)
  exact h.readers_inside ht (not_willWake ht nofun) ha.of_wakeup

theorem rounded_copy (h : s.Waits)
    (ht : s.pos t = .inside (.copy dst k i)) (hrun : pipereadCopy t dst k i s = .ok ((), s', n)) :
    Rounded t s s' := by
  unfold pipereadCopy at hrun
  rw [get_bind_run] at hrun
  split at hrun
  case isFalse => exact rounded_readDone h ht hrun
  case isTrue =>
  split at hrun
  case isTrue => exact rounded_readDone h ht hrun
  case isFalse hsome =>
  split at hrun
  case isFalse => exact rounded_readDone h ht hrun
  case isTrue =>
  cases hrun
  refine .of_leave ⟨⟨fun u d hu => h.held_setPos ht hu, fun ha => ?_, fun ha => ?_⟩,
    not_writing_setPos nofun⟩
  · -- there was a byte, so no reader sleeps
    have hempty := (h.readers_inside ht (not_willWake ht nofun) (ha.of_setPos nofun)).2
    exact absurd (s.pipe.empty_iff.mpr hempty) hsome
  · exact ⟨(h.writers (ha.of_setPos nofun)).1, .inr ⟨t, dst, k, i + 1, setPos_self s t _⟩⟩

theorem rounded (h : s.Waits) (hrun : pipeRound t s = .ok ((), s', n)) : Rounded t s s' := by
  unfold pipeRound at hrun
  rw [get_bind_run] at hrun
  cases hpos : s.pos t with
  | inside c =>
    simp only [hpos] at hrun
    cases c with
    | write src k i => exact rounded_write h hpos hrun
    | await dst k => exact rounded_await h hpos hrun
    | copy dst k i => exact rounded_copy h hpos hrun
  | _ =>
    simp only [hpos] at hrun
    cases hrun

-- ======== the system

/-- No writer is killed after it has stored a byte for a reader that
sleeps: either there is no such reader, or the pipe is empty. -/
def KillsClear : PipeOp → Notes PipeEvent PipeSys → PipeSys → Prop
  | .kill t, _, s => s.Writing t → s.Asleep .nread → s.pipe.level = 0
  | .killDuring t, _, s => s.Storing t → ¬ s.Asleep .nread
  | _, _, _ => True

/-- The runs in which every kill is like that. -/
abbrev ClearRuns : Notes PipeEvent PipeSys → PipeSys → Prop :=
  Course PipeFresh (fun _ _ => False) PipeOp.prog KillsClear

namespace PipeSys.Waits

variable (h : s.Waits)

include h

/-- A process moves outside the lock. -/
theorem outside (hout : ∀ d, s.pos t ≠ .inside d) (ha : ∀ d, a ≠ .inside d)
    (hs : ∀ ch c, a ≠ .asleep ch c) : (s.setPos t a).Waits := by
  have hin : ∀ {u d}, s.pos u = .inside d → (s.setPos t a).pos u = .inside d := by
    intro u d hu
    have hut : u ≠ t := by
      rintro rfl
      exact hout d hu
    rw [← hu]
    exact update_of_ne hut a s.pos
  refine ⟨fun u d hu => ?_, fun hr => ?_, fun hw => ?_⟩
  · rcases inside_setPos hu with ⟨-, hd⟩ | ⟨-, hd⟩
    · exact absurd hd (ha d)
    · exact h.held u d hd
  · obtain ⟨hopen, hempty | ⟨u, ⟨src, k, i, hu⟩, hk⟩⟩ := h.readers (hr.of_setPos (hs .nread))
    · exact ⟨hopen, .inl hempty⟩
    · exact ⟨hopen, .inr ⟨u, ⟨src, k, i, hin hu⟩, hk⟩⟩
  · obtain ⟨hopen, hfull | ⟨u, dst, k, i, hu⟩⟩ := h.writers (hw.of_setPos (hs .nwrite))
    · exact ⟨hopen, .inl hfull⟩
    · exact ⟨hopen, .inr ⟨u, dst, k, i, hin hu⟩⟩

/-- A change of `killed` is safe unless it takes away a wakeup that is
owed. -/
theorem setKilled {b : Bool} (hk : b = true → s.Writing t → s.Asleep .nread → s.pipe.level = 0) :
    PipeSys.Waits { s with killed := update s.killed t b } := by
  refine ⟨h.held, fun ha => ?_, h.writers⟩
  obtain ⟨hopen, hempty | ⟨u, hw, hu, hread⟩⟩ := h.readers ha
  · exact ⟨hopen, .inl hempty⟩
  by_cases hut : u = t
  · subst hut
    cases b with
    | true => exact ⟨hopen, .inl (hk rfl hw ha)⟩
    | false => exact ⟨hopen, .inr ⟨u, hw, update_self .., hread⟩⟩
  · exact ⟨hopen, .inr ⟨u, hw, (update_of_ne hut ..).trans hu, hread⟩⟩

theorem call (hrun : pipeCall t c s = .ok ((), s', n)) : s'.Waits := by
  obtain ⟨hpos, rfl, -⟩ := pipeCall_ok hrun
  refine h.outside (fun d hd => ?_) nofun nofun
  rw [hpos] at hd
  cases hd

theorem acquire (hrun : pipeAcquire t s = .ok ((), s', n)) : s'.Waits := by
  obtain ⟨c, hpos, hlock, -, rfl⟩ := pipeAcquire_ok hrun
  refine .of_reasons (fun u d hu => ?_) (fun ha => h.readers_free hlock (ha.of_setPos nofun))
    fun ha => h.writers_free hlock (ha.of_setPos nofun)
  rcases inside_setPos hu with ⟨rfl, -⟩ | ⟨-, hd⟩
  · rfl
  · have hheld := h.held u d hd
    rw [hlock] at hheld
    cases hheld

theorem kill (hk : s.Writing t → s.Asleep .nread → s.pipe.level = 0) :
    PipeSys.Waits { s.setPos t (s.pos t).roused with
      killed := update s.killed t true } := by
  cases hpos : s.pos t with
  | asleep ch c =>
    have hout : (s.setPos t (.outside c)).Waits := by
      refine h.outside (fun d hd => ?_) nofun nofun
      rw [hpos] at hd
      cases hd
    refine hout.setKilled fun _ ⟨src, k, i, hw⟩ _ => ?_
    rw [setPos_self] at hw
    cases hw
  | _ =>
    -- it is not asleep, so it stays where it is
    have hsame : s.setPos t (s.pos t) = s := by
      unfold PipeSys.setPos
      rw [update_eq_self]
    rw [hpos] at hsame
    show PipeSys.Waits { s.setPos t _ with killed := _ }
    simp only [PipePos.roused, hsame]
    exact h.setKilled fun _ => hk

theorem close {writable : Bool} (hrun : pipeclose writable s = .ok ((), s', n)) : s'.Waits := by
  unfold pipeclose at hrun
  rw [get_bind_run] at hrun
  split at hrun
  · cases hrun
  · next hlock =>
    have hfree : s.lock = none := by
      cases hl : s.lock with
      | none => rfl
      | some u =>
        rw [hl] at hlock
        exact absurd rfl hlock
    split at hrun
    · cases hrun
      exact .of_reasons (h.wakeup .nread).held (fun ha => absurd ha (s.not_asleep_wakeup .nread))
        fun ha => h.writers_free hfree ha.of_wakeup
    · cases hrun
      exact .of_reasons (h.wakeup .nwrite).held (fun ha => h.readers_free hfree ha.of_wakeup)
        fun ha => absurd ha (s.not_asleep_wakeup .nwrite)

/-- Every step keeps the reasons. -/
theorem step {o : PipeOp} (hc : KillsClear o n s)
    {t : Notes PipeEvent PipeSys} (hrun : o.prog s = .ok ((), s', t)) :
    s'.Waits := by
  cases o with
  | write u src k => exact h.call hrun
  | read u dst k => exact h.call hrun
  | acquire u => exact h.acquire hrun
  | round u => exact (rounded h hrun).1
  | kill u =>
    cases hrun
    exact h.kill hc
  | killDuring u =>
    obtain ⟨⟨⟩, s1, n1, n2, hround, hend, rfl⟩ := bind_ok hrun
    cases hend
    obtain ⟨hw, hstored⟩ := rounded h hround
    refine hw.setKilled fun _ hwriting ha => ?_
    obtain ⟨hstoring, hold⟩ := hstored hwriting
    exact absurd (hold ha) (hc hstoring)
  | reuse u =>
    obtain ⟨-, rfl⟩ := reuse_ok hrun
    exact h.setKilled nofun
  | close writable => exact h.close hrun

end PipeSys.Waits

theorem PipeFresh.waits (h : PipeFresh s) : s.Waits := by
  refine ⟨fun t c ht => ?_, fun ⟨u, c, hu⟩ => ?_, fun ⟨u, c, hu⟩ => ?_⟩
  · rw [h.pos t] at ht
    cases ht
  · rw [h.pos u] at hu
    cases hu
  · rw [h.pos u] at hu
    cases hu

theorem ClearRuns.waits (h : ClearRuns n s) : s.Waits :=
  Course.invariant (I := fun _ s => s.Waits) (fun _ hs => hs.waits)
    (fun _ _ _ _ _ hI hc hrun => hI.step hc hrun) (fun _ _ _ _ hw => hw.elim) h

/-- Whenever the lock is free: who sleeps for bytes finds the pipe empty
and its writing end open, and who sleeps for room finds it full and its
reading end open. -/
theorem pipe_sleepers_blocked {n : Notes PipeEvent PipeSys} {s : PipeSys}
    (h : ClearRuns n s) (hfree : s.lock = none) (u : ProcId) (c : PipeCall) :
    (s.pos u = .asleep .nread c → s.pipe.inFlight = [] ∧ s.pipe.writeopen = true)
    ∧ (s.pos u = .asleep .nwrite c →
      s.pipe.inFlight.length = pipesize ∧ s.pipe.readopen = true) := by
  refine ⟨fun hu => ?_, fun hu => ?_⟩
  · obtain ⟨hopen, hempty⟩ := h.waits.readers_free hfree ⟨u, c, hu⟩
    rw [← List.length_eq_zero_iff, Pipe.length_inFlight]
    exact ⟨hempty, hopen⟩
  · obtain ⟨hopen, hfull⟩ := h.waits.writers_free hfree ⟨u, c, hu⟩
    rw [Pipe.length_inFlight]
    exact ⟨hfull, hopen⟩

/-- The channel a process sleeps on. -/
def PipePos.waitsOn : PipePos → Option PipeChan
  | .asleep ch _ => some ch
  | _ => none

theorem PipePos.asleep_of_waitsOn (h : a.waitsOn = some chan) : ∃ c, a = .asleep chan c := by
  cases a with
  | asleep ch c =>
    cases h
    exact ⟨c, rfl⟩
  | _ => cases h

def PipeOp.isKill : PipeOp → Bool
  | .kill _ | .killDuring _ => true
  | _ => false

/-- Process 1 calls `piperead` on an empty pipe. -/
def waitToRead : List PipeOp :=
  [.read 1 (fun _ => true) 1, .acquire 1, .round 1]

theorem pipe_sleepers_blocked_reader :
    ∃ n s c, ClearRuns n s ∧ s.lock = none ∧ s.pos 1 = .asleep .nread c
      ∧ s.pipe.inFlight = [] ∧ s.pipe.writeopen = true := by
  have hfresh : ClearRuns [] emptyPipe := .init ⟨rfl, rfl, rfl, rfl, rfl, fun _ => rfl⟩
  obtain ⟨n, s, hr, hlock, hpos⟩ := hfresh.played
    (P := fun _ s => s.lock = none ∧ (s.pos 1).waitsOn = some .nread) (fun o _ _ => !o.isKill)
    (fun o _ _ ho => by cases o <;> trivial) waitToRead (by decide +kernel)
  obtain ⟨c, hc⟩ := PipePos.asleep_of_waitsOn hpos
  exact ⟨n, s, c, hr, hlock, hc, (pipe_sleepers_blocked hr hlock 1 c).1 hc⟩

/-- Then process 0 writes two bytes and is killed after the first. -/
def killMidWrite : List PipeOp :=
  waitToRead ++ [.write 0 (fun i => some (UInt8.ofNat (7 + i))) 2, .acquire 0,
    .round 0, .kill 0, .round 0]

/-- The byte is in the pipe, the lock is free, and the reader sleeps. -/
theorem killed_mid_write : ∃ n s c, PipeRuns n s ∧ s.lock = none ∧ s.pos 1 = .asleep .nread c
      ∧ s.pipe.inFlight = [7] := by
  obtain ⟨n, s, hr, hlock, hpos, hfull⟩ := emptyPipe_runs.played (P := fun _ s =>
    s.lock = none ∧ (s.pos 1).waitsOn = some .nread ∧ s.pipe.inFlight = [7])
    (fun _ _ _ _ _ => trivial) killMidWrite (by decide +kernel)
  obtain ⟨c, hc⟩ := PipePos.asleep_of_waitsOn hpos
  exact ⟨n, s, c, hr, hlock, hc, hfull⟩

end GemOS
