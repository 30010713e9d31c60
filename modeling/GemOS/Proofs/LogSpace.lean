/-
The space that `begin_op` reserves in the log.

An operation that has logged `mine` may still add `MAXOPBLOCKS` less
`mine.length` blocks; that is its `spare`. The invariant is that what is
in the log and what is spare fit together (`LogInv.room`). An operation
with nothing to spare writes only blocks that are in the log already, so
the log never grows past its end, but `log_write` looks at the length
before it looks for the block: at a full log such a write panics.
-/
import GemOS.Lib.Wp
import GemOS.Lib.Tally
import GemOS.Kernel.LogSystem

namespace GemOS

open Function Prog

variable {ι : Type}

-- ======== the invariant

/-- Does the operation count in `log.outstanding`? -/
def LogPos.active : LogPos → Nat
  | .inside _ => 1
  | _ => 0

/-- How many blocks the operation may still add. -/
def LogPos.spare : LogPos → Nat
  | .inside mine => maxopblocks - mine.length
  | _ => 0

def LogPos.Busy : LogPos → Prop
  | .committing => True
  | .committed => True
  | _ => False

/-- `A` are the operations that have ever begun. -/
structure LogInv (A : Finset ι) (s : LogSys ι) : Prop where
  nodup : s.log.lh.Nodup
  out : ∀ t, t ∉ A → s.pos t = .out
  mine : ∀ t mine, s.pos t = .inside mine → mine.length ≤ maxopblocks ∧ ∀ b ∈ mine, b ∈ s.log.lh
  outstanding : s.log.outstanding = tally A LogPos.active s.pos
  room : s.log.lh.length + tally A LogPos.spare s.pos ≤ logblocks
  busy : ∀ t, (s.pos t).Busy → s.log.committing = true
  alone : ∀ t u, (s.pos t).Busy → (s.pos u).Busy → t = u
  quiet : s.log.committing = true → s.log.outstanding = 0

variable {A : Finset ι} {s : LogSys ι} {t : ι}

theorem LogFresh.inv (h : LogFresh s) : LogInv (∅ : Finset ι) s := by
  obtain ⟨hlh, hout, hcom, hpos⟩ := h
  have hbusy : ∀ t, ¬ (s.pos t).Busy := by
    intro t hb
    rw [hpos t] at hb
    exact hb
  have hzero : ∀ w : LogPos → Nat, tally ∅ w s.pos = 0 := fun w => tally_eq_zero.mpr (by simp)
  refine ⟨?_, fun t _ => hpos t, fun t mine hm => ?_, ?_, ?_,
    fun t hb => (hbusy t hb).elim, fun t _ hb => (hbusy t hb).elim, fun _ => hout⟩
  · rw [hlh]
    exact List.nodup_nil
  · rw [hpos t] at hm
    cases hm
  · rw [hout, hzero]
    rfl
  · rw [hlh, hzero]
    exact Nat.zero_le _

/-- While an operation is inside, nobody commits. -/
theorem LogInv.open (h : LogInv A s) {mine : List Nat} (ht : s.pos t = .inside mine) :
    1 ≤ s.log.outstanding ∧ s.log.committing = false := by
  have hA : t ∈ A := by grind [h.out]
  have hle : (s.pos t).active ≤ tally A LogPos.active s.pos := le_tally hA
  have hone : (s.pos t).active = 1 := by rw [ht]; rfl
  have hcounted := h.outstanding
  have hpos : 1 ≤ s.log.outstanding := by omega
  refine ⟨hpos, ?_⟩
  cases hcom : s.log.committing with
  | false => rfl
  | true =>
    have hzero := h.quiet hcom
    omega

/-- While somebody commits, no operation is inside. -/
theorem LogInv.shut (h : LogInv A s) (ht : (s.pos t).Busy) (u : ι)
    (mine : List Nat) : s.pos u ≠ .inside mine := by
  intro hu
  have hfalse := (h.open hu).2
  rw [h.busy t ht] at hfalse
  cases hfalse

/-- An operation that has used up its share writes a block of its own. -/
theorem LogInv.spare_le (h : LogInv A s) {mine : List Nat} (ht : s.pos t = .inside mine) :
    s.log.lh.length + (maxopblocks - mine.length) ≤ logblocks := by
  have hA : t ∈ A := by grind [h.out]
  have hle : (s.pos t).spare ≤ tally A LogPos.spare s.pos := le_tally hA
  have hsp : (s.pos t).spare = maxopblocks - mine.length := by rw [ht]; rfl
  have hroom := h.room
  omega

/-- At a full log, an operation writes only blocks that are in the log. -/
theorem LogInv.full {mine : List Nat} {blockno : Nat} (h : LogInv A s)
    (ht : s.pos t = .inside mine) (hmay : MayLog mine blockno)
    (hfull : s.log.lh.length = logblocks) : blockno ∈ s.log.lh := by
  have hspare := h.spare_le ht
  refine (h.mine t mine ht).2 blockno (hmay.resolve_right ?_)
  omega

variable [DecidableEq ι]

section

variable (h : LogInv A s)

include h

/-- Any operation may be counted among those that have begun. -/
theorem LogInv.grow (t : ι) : LogInv (insert t A) s := by
  by_cases ht : t ∈ A
  · rw [Finset.insert_eq_of_mem ht]
    exact h
  · have hout := h.out t ht
    have hactive : tally (insert t A) LogPos.active s.pos = tally A LogPos.active s.pos := by
      apply tally_insert
      rw [hout]
      rfl
    have hspare : tally (insert t A) LogPos.spare s.pos = tally A LogPos.spare s.pos := by
      apply tally_insert
      rw [hout]
      rfl
    refine ⟨h.nodup, fun u hu => h.out u ?_, h.mine, ?_, ?_, h.busy, h.alone, h.quiet⟩
    · intro hmem
      exact hu (Finset.mem_insert_of_mem hmem)
    · rw [hactive]
      exact h.outstanding
    · rw [hspare]
      exact h.room

/-- An operation moves on. -/
theorem LogInv.move {l : Log} {p : LogPos} (ht : t ∈ A) (hnd : l.lh.Nodup)
    (hmine : ∀ u mine, s.pos u = .inside mine → ∀ b ∈ mine, b ∈ l.lh)
    (hp : ∀ mine, p = .inside mine → mine.length ≤ maxopblocks ∧ ∀ b ∈ mine, b ∈ l.lh)
    (hout : l.outstanding + (s.pos t).active = s.log.outstanding + p.active)
    (hroom : l.lh.length + tally A LogPos.spare s.pos + p.spare ≤ logblocks + (s.pos t).spare)
    (hbusy : ∀ u, u ≠ t → (s.pos u).Busy → l.committing = true ∧ ¬ p.Busy)
    (hcom : p.Busy → l.committing = true) (hquiet : l.committing = true → l.outstanding = 0) :
    LogInv A (s.move t l p) := by
  have hactive := tally_update (w := LogPos.active) (f := s.pos) ht p
  have hspare := tally_update (w := LogPos.spare) (f := s.pos) ht p
  have hself : (s.move t l p).pos t = p := update_self ..
  have hother : ∀ u, u ≠ t → (s.move t l p).pos u = s.pos u := fun u hu => update_of_ne hu ..
  have hcounted := h.outstanding
  refine ⟨hnd, fun u hu => ?_, fun u mine hm => ?_, ?_, ?_, fun u hu => ?_,
    fun u v hu hv => ?_, hquiet⟩
  · grind [h.out]
  · by_cases hut : u = t
    · rw [hut, hself] at hm
      exact hp mine hm
    · rw [hother u hut] at hm
      exact ⟨(h.mine u mine hm).1, hmine u mine hm⟩
  · show l.outstanding = ((tally A LogPos.active (update s.pos t p) : Nat) : Int)
    omega
  · show l.lh.length + tally A LogPos.spare (update s.pos t p) ≤ _
    omega
  · by_cases hut : u = t
    · rw [hut, hself] at hu
      exact hcom hu
    · rw [hother u hut] at hu
      exact (hbusy u hut hu).1
  · by_cases hut : u = t
    · grind
    · by_cases hvt : v = t
      · grind
      · grind [h.alone]

-- ======== the steps

/-- After a step, the invariant holds for some set of operations. -/
def LogKept (s : LogSys ι) : Prop := ∃ A : Finset ι, LogInv A s

/-- A step may turn out to be impossible. -/
def anyHalt : Halt → Prop := fun _ => True

theorem wp_beginOp : wp anyHalt (LogOp.beginOp t).prog (fun _ => LogKept) s := by
  refine .get_bind ?_
  cases hpos : s.pos t with
  | out =>
    dsimp only
    cases hbegin : s.log.beginOp with
    | none => exact .fault trivial
    | some l =>
      refine .modify ⟨insert t A, ?_⟩
      unfold Log.beginOp at hbegin
      split at hbegin
      · cases hbegin
      · next hcom =>
        split at hbegin
        · cases hbegin
        · next hfits =>
          cases hbegin
          have hg := h.grow t
          -- nobody has more to spare than a whole operation
          have hspare : tally (insert t A) LogPos.spare s.pos
              ≤ 10 * tally (insert t A) LogPos.active s.pos := by
            apply tally_le_mul
            intro u _
            cases s.pos u with
            | inside mine => exact Nat.sub_le _ _
            | _ => exact Nat.le_refl _
          have hcounted := hg.outstanding
          refine hg.move (Finset.mem_insert_self t A) hg.nodup
            (fun u mine hu => (hg.mine u mine hu).2) (fun mine hm => ?_)
            ?_ ?_ (fun u _ hu => absurd (hg.busy u hu) hcom)
            (fun hb => hb.elim) fun hc => absurd hc hcom
          · cases hm
            exact ⟨Nat.zero_le _, by simp⟩
          · rw [hpos]
            show s.log.outstanding + 1 + (0 : Nat) = s.log.outstanding + (1 : Nat)
            omega
          · rw [hpos]
            show s.log.lh.length + _ + 10 ≤ 30 + 0
            change ¬ ((s.log.lh.length : Int) + (s.log.outstanding + 1) * 10 > 30) at hfits
            omega
  | _ => exact .fault trivial

omit h in
/-- What a `log_write` that returns has done to the log. -/
theorem Log.write_ok {l l' : Log} {blockno : Nat} {new : Bool}
    (h : l.write blockno = .ok (new, l')) : l.lh.length < logblocks ∧ 1 ≤ l.outstanding
      ∧ (blockno ∈ l.lh ∧ new = false ∧ l' = l ∨ blockno ∉ l.lh ∧ new = true
        ∧ l' = { l with lh := l.lh ++ [blockno] }) := by
  unfold Log.write at h
  split at h
  · cases h
  · grind

theorem wp_logWrite {blockno : Nat} :
    wp anyHalt (LogOp.logWrite t blockno).prog (fun _ => LogKept) s := by
  refine .get_bind ?_
  cases hpos : s.pos t with
  | inside mine =>
    refine .ite (fun hmay => ?_) fun _ => .fault trivial
    cases hwrite : s.log.write blockno with
    | error msg => exact .fault trivial
    | ok r =>
      obtain ⟨new, l⟩ := r
      refine .modify ⟨insert t A, ?_⟩
      have hg := h.grow t
      obtain ⟨hcount, hsub⟩ := h.mine t mine hpos
      have hshut := (h.open hpos).2
      have hroom := hg.room
      -- the operation's list grows by the block, unless it is there
      have hins : (mine.insert blockno).length ≤ maxopblocks
          ∧ (mine.insert blockno).length ≤ mine.length + 1
          ∧ mine.length ≤ (mine.insert blockno).length
          ∧ (blockno ∉ mine → (mine.insert blockno).length = mine.length + 1) := by
        by_cases hm : blockno ∈ mine
        · rw [List.insert_of_mem hm]
          exact ⟨hcount, by omega, le_refl _, fun h' => absurd hm h'⟩
        · rw [List.insert_of_not_mem hm, List.length_cons]
          have hlt := hmay.resolve_left hm
          exact ⟨hlt, le_refl _, by omega, fun _ => rfl⟩
      have hspare : (s.pos t).spare = maxopblocks - mine.length := by
        rw [hpos]
        rfl
      obtain ⟨hlen, -, ⟨hmem, -, rfl⟩ | ⟨hmem, -, rfl⟩⟩ := Log.write_ok hwrite
      · refine hg.move (Finset.mem_insert_self t A) hg.nodup
          (fun u m hu => (hg.mine u m hu).2) (fun m hm => ?_) ?_ ?_
          (fun u _ hu => ?_) (fun hb => hb.elim) hg.quiet
        · grind
        · rw [hpos]
          rfl
        · show _ + (maxopblocks - (mine.insert blockno).length) ≤ _
          omega
        · rw [hg.busy u hu] at hshut
          cases hshut
      · have hnew : blockno ∉ mine := fun hm => hmem (hsub blockno hm)
        have hlonger := hins.2.2.2 hnew
        refine hg.move (Finset.mem_insert_self t A) ?_
          (fun u m hu b hb => ?_) (fun m hm => ?_) ?_ ?_
          (fun u _ hu => ?_) (fun hb => hb.elim) hg.quiet
        · exact List.nodup_append_comm.mp (List.nodup_cons.mpr ⟨hmem, hg.nodup⟩)
        · exact List.mem_append_left _ ((hg.mine u m hu).2 b hb)
        · grind [List.mem_append_right, List.mem_singleton, List.mem_append_left]
        · rw [hpos]
          rfl
        · show (s.log.lh ++ [blockno]).length + _ + (maxopblocks - (mine.insert blockno).length) ≤ _
          rw [List.length_append, List.length_singleton]
          omega
        · rw [hg.busy u hu] at hshut
          cases hshut
  | _ => exact .fault trivial

theorem wp_endOp : wp anyHalt (LogOp.endOp t).prog (fun _ => LogKept) s := by
  refine .get_bind ?_
  cases hpos : s.pos t with
  | inside mine =>
    obtain ⟨hout, hshut⟩ := h.open hpos
    have hg := h.grow t
    have hroom := hg.room
    have hend : s.log.endOp = if s.log.outstanding - 1 = 0 then .ok (true, { s.log with
          outstanding := s.log.outstanding - 1, committing := true })
        else .ok (false, { s.log with
          outstanding := s.log.outstanding - 1 }) := by grind [Log.endOp]
    dsimp only
    by_cases hlast : s.log.outstanding - 1 = 0
    · rw [hend, if_pos hlast]
      refine .modify ⟨insert t A, hg.move (Finset.mem_insert_self t A)
        hg.nodup (fun u m hu => (hg.mine u m hu).2) nofun ?_ ?_
        (fun u _ hu => ?_) (fun _ => rfl) fun _ => hlast⟩
      · rw [hpos]
        show s.log.outstanding - 1 + (1 : Nat) = s.log.outstanding + (0 : Nat)
        omega
      · show s.log.lh.length + _ + 0 ≤ _
        omega
      · rw [hg.busy u hu] at hshut
        cases hshut
    · rw [hend, if_neg hlast]
      refine .modify ⟨insert t A, hg.move (Finset.mem_insert_self t A)
        hg.nodup (fun u m hu => (hg.mine u m hu).2) nofun ?_ ?_
        (fun u _ hu => ?_) (fun hb => hb.elim) fun hc => ?_⟩
      · rw [hpos]
        show s.log.outstanding - 1 + (1 : Nat) = s.log.outstanding + (0 : Nat)
        omega
      · show s.log.lh.length + _ + 0 ≤ _
        omega
      · rw [hg.busy u hu] at hshut
        cases hshut
      · rw [hshut] at hc
        cases hc
  | _ => exact .fault trivial

theorem wp_commitLog : wp anyHalt (LogOp.commit t).prog (fun _ => LogKept) s := by
  refine .get_bind ?_
  cases hpos : s.pos t with
  | committing =>
    have hbusy : (s.pos t).Busy := by rw [hpos]; exact trivial
    have hg := h.grow t
    have hroom := hg.room
    refine .modify ⟨insert t A, hg.move (Finset.mem_insert_self t A)
      List.nodup_nil (fun u m hu => absurd hu (h.shut hbusy u m)) nofun ?_
      ?_ (fun u hu hb => absurd (h.alone u t hb hbusy) hu) (fun _ => h.busy t hbusy) hg.quiet⟩
    · rw [hpos]
      rfl
    · show 0 + _ + 0 ≤ _
      omega
  | _ => exact .fault trivial

theorem wp_finish : wp anyHalt (LogOp.finish t).prog (fun _ => LogKept) s := by
  refine .get_bind ?_
  cases hpos : s.pos t with
  | committed =>
    have hbusy : (s.pos t).Busy := by rw [hpos]; exact trivial
    have hg := h.grow t
    refine .modify ⟨insert t A, hg.move (Finset.mem_insert_self t A)
      hg.nodup (fun u m hu => (hg.mine u m hu).2) nofun ?_ ?_
      (fun u hu hb => absurd (h.alone u t hb hbusy) hu) (fun hb => hb.elim) nofun⟩
    · rw [hpos]
      rfl
    · rw [hpos]
      exact hg.room
  | _ => exact .fault trivial

end

theorem wp_logOp (o : LogOp ι) (h : LogInv A s) : wp anyHalt o.prog (fun _ => LogKept) s := by
  cases o with
  | beginOp t => exact wp_beginOp h
  | logWrite t blockno => exact wp_logWrite h
  | endOp t => exact wp_endOp h
  | commit t => exact wp_commitLog h
  | finish t => exact wp_finish h

-- ======== the runs

theorem LogRuns.inv {n : Notes Empty (LogSys ι)} {s : LogSys ι} (h : LogRuns n s) : LogKept s := by
  induction h with
  | init hs => exact ⟨∅, hs.inv⟩
  | step o _ hrun _ ih =>
    obtain ⟨A, hA⟩ := ih
    exact (wp_logOp o hA).ok hrun

section refusal

variable {mine : List Nat} {blockno : Nat}

/-- A write the rules allow is refused for its size exactly when the log
is full. -/
theorem LogInv.refuses_iff (h : LogInv A s) (ht : s.pos t = .inside mine)
    (hmay : MayLog mine blockno) :
    (LogOp.logWrite t blockno).prog s = .error (.panic "too big a transaction")
      ↔ s.log.lh.length = logblocks := by
  have hspare := h.spare_le ht
  have hopen := (h.open ht).1
  rw [show (LogOp.logWrite t blockno).prog s = _ from get_bind_run _ s, ht]
  dsimp only
  rw [if_pos hmay]
  constructor
  · intro hrun
    by_contra hne
    have hwrite : s.log.write blockno = if blockno ∈ s.log.lh then .ok (false, s.log)
        else .ok (true, { s.log with lh := s.log.lh ++ [blockno] }) := by
      unfold Log.write
      rw [if_neg (by omega), if_neg (by omega)]
    rw [hwrite] at hrun
    by_cases hmem : blockno ∈ s.log.lh
    · rw [if_pos hmem] at hrun
      cases hrun
    · rw [if_neg hmem] at hrun
      cases hrun
  · intro hfull
    have hwrite : s.log.write blockno = .error "too big a transaction" := by
      unfold Log.write
      rw [if_pos (Nat.le_of_eq hfull.symm)]
    rw [hwrite]
    rfl

end refusal

/-- In every run of operations that keep to the rules, the log stays
within its bounds and without duplicates, and `log_write` reports a
transaction as too big exactly when the log is full, even though the
block is in the log by then. -/
theorem log_space_iff {n : Notes Empty (LogSys ι)} {s : LogSys ι} (h : LogRuns n s) :
    s.log.lh.length ≤ logblocks ∧ s.log.lh.Nodup
      ∧ ∀ t mine blockno, s.pos t = .inside mine → MayLog mine blockno →
        ((LogOp.logWrite t blockno).prog s = .error (.panic "too big a transaction")
          ↔ s.log.lh.length = logblocks)
        ∧ (s.log.lh.length = logblocks → blockno ∈ s.log.lh) := by
  obtain ⟨A, hA⟩ := h.inv
  have hroom := hA.room
  exact ⟨by omega, hA.nodup, fun t mine blockno ht hmay =>
    ⟨hA.refuses_iff ht hmay, hA.full ht hmay⟩⟩

/-- A log that nobody uses yet. -/
def idleLog : LogSys ProcId :=
  { log := ⟨2, 1, 0, false, []⟩, pos := fun _ => .out }

theorem idleLog_fresh : LogFresh idleLog := ⟨rfl, rfl, rfl, fun _ => rfl⟩

/-- Three operations at once, each of which logs ten blocks. -/
def threeShares : List (LogOp ProcId) :=
  [.beginOp 0, .beginOp 1, .beginOp 2] ++ (List.range 10).map (fun i => .logWrite 0 (100 + i))
    ++ (List.range 10).map (fun i => .logWrite 1 (110 + i))
    ++ (List.range 10).map (fun i => .logWrite 2 (120 + i))

theorem idleLog_runs : LogRuns [] idleLog := .init idleLog_fresh

/-- One of the three writes a block again that it has already logged. -/
theorem log_full_rewrite : ∃ n s, LogRuns n s
      ∧ s.pos (0 : ProcId) = .inside ((List.range 10).map (100 + ·)).reverse
      ∧ MayLog ((List.range 10).map (100 + ·)).reverse 100
      ∧ (LogOp.logWrite 0 100).prog s = .error (.panic "too big a transaction") := by
  obtain ⟨n, s, hr, hpos, hfull⟩ := idleLog_runs.played (P := fun _ s =>
    s.pos (0 : ProcId) = .inside ((List.range 10).map (100 + ·)).reverse ∧ s.log.lh.length = 30)
    (fun _ _ _ _ _ => trivial) threeShares (by decide +kernel)
  have hmay : MayLog ((List.range 10).map (100 + ·)).reverse 100 := by decide
  obtain ⟨A, hA⟩ := LogRuns.inv hr
  exact ⟨n, s, hr, hpos, hmay, (hA.refuses_iff hpos hmay).mpr hfull⟩

theorem log_space_iff_fresh : (idleLog.log.lh.length ≤ logblocks ∧ idleLog.log.lh.Nodup)
      ∧ ∃ n s, LogRuns n s ∧ s.pos (0 : ProcId) = .inside [7] ∧ (LogOp.logWrite 0 8).prog s
          ≠ .error (.panic "too big a transaction") := by
  obtain ⟨n, s, hr, hpos, hroom⟩ := idleLog_runs.played (P := fun _ s =>
    s.pos (0 : ProcId) = .inside [7] ∧ s.log.lh.length ≠ logblocks)
    (fun _ _ _ _ _ => trivial) [.beginOp 0, .logWrite 0 7] (by decide +kernel)
  obtain ⟨hle, hnd, -⟩ := log_space_iff idleLog_runs
  obtain ⟨-, -, hiff⟩ := log_space_iff hr
  exact ⟨⟨hle, hnd⟩, n, s, hr, hpos,
    fun hpanic => hroom ((hiff 0 [7] 8 hpos (by decide)).1.mp hpanic)⟩

-- ======== whole operations

section whole

variable {n m : Notes Empty (LogSys ι)} {s s' : LogSys ι} {o : LogOp ι} {t : ι}

/-- Only `commit` takes blocks out of the header. -/
theorem wp_header (hne : ∀ t, o ≠ .commit t) :
    wp anyHalt o.prog (fun _ s' => s.log.lh <+: s'.log.lh) s := by
  cases o with
  | commit t => exact absurd rfl (hne t)
  | beginOp t =>
    refine .get_bind ?_
    cases s.pos t with
    | out =>
      dsimp only [Log.beginOp]
      split_ifs
      · exact .fault trivial
      · exact .fault trivial
      · exact .modify (List.prefix_refl _)
    | _ => exact .fault trivial
  | logWrite t blockno =>
    refine .get_bind ?_
    cases s.pos t with
    | inside mine =>
      dsimp only [Log.write]
      split_ifs
      · exact .fault trivial
      · exact .fault trivial
      · exact .modify (List.prefix_refl _)
      · exact .modify (List.prefix_append ..)
      · exact .fault trivial
    | _ => exact .fault trivial
  | endOp t =>
    refine .get_bind ?_
    cases s.pos t with
    | inside mine =>
      dsimp only [Log.endOp]
      split_ifs
      · exact .fault trivial
      · exact .modify (List.prefix_refl _)
      · exact .modify (List.prefix_refl _)
    | _ => exact .fault trivial
  | finish t =>
    refine .get_bind ?_
    cases s.pos t with
    | committed => exact .modify (List.prefix_refl _)
    | _ => exact .fault trivial

/-- A transaction holds whole operations: the blocks that an operation
under way has logged are in the header, every step but a commit leaves
them there, and a commit finds no other operation under way and lets none
begin. -/
theorem transactions_whole (h : LogRuns n s) (hrun : o.prog s = .ok ((), s', m)) :
    (∀ t mine, s.pos t = .inside mine → ∀ b ∈ mine, b ∈ s.log.lh)
      ∧ ((∀ t, o ≠ .commit t) → s.log.lh <+: s'.log.lh)
      ∧ ∀ t, o = .commit t → s.log.beginOp = none ∧ ∀ u, u ≠ t → s.pos u = .out := by
  obtain ⟨A, hA⟩ := h.inv
  refine ⟨fun t mine ht => (hA.mine t mine ht).2, fun hne => (wp_header hne).ok hrun, ?_⟩
  rintro t rfl
  have hbusy : (s.pos t).Busy := by
    rw [show (LogOp.commit t).prog s = _ from get_bind_run _ s] at hrun
    cases hpos : s.pos t with
    | committing => exact trivial
    | _ => rw [hpos] at hrun; cases hrun
  refine ⟨if_pos (hA.busy t hbusy), fun u hu => ?_⟩
  cases hpos : s.pos u with
  | out => rfl
  | inside mine => exact absurd hpos (hA.shut hbusy u mine)
  | committing | committed => exact absurd (hA.alone u t (by rw [hpos]; exact trivial) hbusy) hu

/-- Two operations, the second of which ends last and commits. -/
theorem transactions_whole_two : ∃ n s s' m, LogRuns n s
      ∧ (LogOp.commit (1 : ProcId)).prog s = .ok ((), s', m) ∧ s.log.lh = [7, 8]
      ∧ s.log.beginOp = none ∧ s.pos 0 = .out := by
  obtain ⟨n, s, hr, hpos, hlh⟩ := idleLog_runs.played (P := fun _ s =>
    s.pos (1 : ProcId) = .committing ∧ s.log.lh = [7, 8]) (fun _ _ _ _ _ => trivial)
    [.beginOp 0, .beginOp 1, .logWrite 0 7, .logWrite 1 8, .endOp 0, .endOp 1] (by decide +kernel)
  have hrun : (LogOp.commit (1 : ProcId)).prog s
      = .ok ((), s.move 1 { s.log with lh := [] } .committed, []) := by
    rw [show (LogOp.commit (1 : ProcId)).prog s = _ from get_bind_run _ s, hpos]
    rfl
  obtain ⟨-, -, hcommit⟩ := transactions_whole hr hrun
  obtain ⟨hshut, hout⟩ := hcommit 1 rfl
  exact ⟨n, s, _, _, hr, hrun, hlh, hshut, hout 0 (by decide)⟩

end whole

end GemOS
