/-
`kexec` and the operations of the system on the page machine: an
invariant of the moves that holds at start-up holds in every state the
system reaches (`Kept.runs`).
-/
import GemOS.Proofs.KeptProc

namespace GemOS

open Prog

variable {G : Mark → Kernel → Prop} {J : Ghost → Notes Mark Kernel → Kernel → Prop} {g : Ghost}

-- ======== exec

variable {exe : Exe} {root sz va stackbase sp : Nat} {s : Kernel}
  {p me : ProcId} {argv : List (List UInt8)} {n : Notes Mark Kernel}

theorem Kept.loadseg (hK : Kept G J) {off : Nat} :
    Triple G (J g) (loadseg exe root va off sz) fun _ => J g := by
  have hloop : ∀ n i, Triple G (J g) (loadsegLoop exe root va off sz n i) fun _ => J g := by
    intro n
    induction n with
    | zero => intro i; exact .pure fun n s h => h
    | succ n ih =>
      intro i
      refine .bind hK.walkaddr fun pa => .ite (fun _ => .fault) fun _ => ?_
      cases exe.bytes ((off + i) % 2 ^ 32) (min (sz - i) pgsize) with
      | none => exact .pure fun n s h => h
      | some bs => exact .bind (hK.aside fun s => .mem s _) fun _ => ih _
  exact hloop ..

theorem flags2perm_lt (flags : Nat) : pteR ||| pteU ||| flags2perm flags < 1024 := by
  unfold flags2perm
  split <;> split <;> decide

/-- A spare table is no process's. -/
theorem Own.aboveSpare {x : Option ProcId} (h : Own g s)
    (hat : g.AtRest) (hspare : g.spare = some (root, x)) (a : Nat) : Above root a s.proc := by
  intro q hroot
  exact absurd hspare ((h.attached q root ⟨hat.alive q, hroot⟩).2.2 x)

section

variable (hK : Kept G J)

include hK

/-- The new image grows in a table ready for its process. -/
theorem Kept.loadProgram {phoff : Nat} (hspare : g.spare = some (root, some p)) (hat : g.AtRest)
    (n : Nat) : ∀ {i sz : Nat}, sz ≤ trapframeVa →
    Triple G (J g) (loadProgram exe root phoff n i sz)
      fun r m s => J g m s ∧ r.2 ≤ trapframeVa := by
  induction n with
  | zero => intro i sz hsz; exact .pure fun m s h => ⟨h, hsz⟩
  | succ n ih =>
    intro i sz hsz
    unfold GemOS.loadProgram
    cases exe.ph ((phoff + i * phSize) % 2 ^ 32) with
    | none => exact .pure fun m s h => ⟨h, hsz⟩
    | some ph =>
      have hstop : Triple G (J g) (pure (false, sz) : K (Bool × Nat))
          fun r m s => J g m s ∧ r.2 ≤ trapframeVa :=
        .pure fun m s h => ⟨h, hsz⟩
      refine .ite (fun _ => ih hsz) fun _ => .ite (fun _ => hstop) fun _ =>
        .ite (fun _ => hstop) fun _ => .ite (fun _ => hstop) fun _ => ?_
      refine .bind ((hK.uvmalloc hat.pending (flags2perm_lt _) hsz).pre fun m s h =>
        ⟨h, ⟨p, .inr hspare⟩, (hK.own h).aboveSpare hat hspare sz⟩) fun sz1 => ?_
      refine .of_pre (c := sz1 ≤ trapframeVa) (fun m s h => h.2) fun hsz1 => ?_
      refine .ite (fun _ => hstop.pre fun m s h => h.1) fun _ => ?_
      refine .bind (hK.loadseg.pre fun m s h => h.1) fun r => ?_
      exact .ite (fun _ => .pure fun m s h => ⟨h, hsz1⟩) fun _ => ih hsz1

theorem Kept.pushArgs (hat : g.AtRest)
    (argv : List (List UInt8)) : ∀ {sp : Nat} {ustack : List Nat},
    Triple G (J g) (pushArgs me root stackbase argv sp ustack) fun _ => J g := by
  induction argv with
  | nil => intro sp ustack; exact .pure fun n s h => h
  | cons arg rest ih =>
    intro sp ustack
    refine .ite (fun _ => .pure fun n s h => h) fun _ =>
      .ite (fun _ => .pure fun n s h => h) fun _ => ?_
    exact .bind (hK.copyout hat) fun r => .ite (fun _ => .pure fun n s h => h) fun _ => ih

theorem Kept.pushUstack {ustack : List Nat} (hat : g.AtRest) :
    Triple G (J g) (pushUstack me root stackbase sp ustack) fun _ => J g := by
  refine .ite (fun _ => .pure fun n s h => h) fun _ => ?_
  exact .bind (hK.copyout hat) fun r =>
    .ite (fun _ => .pure fun n s h => h) fun _ => .pure fun n s h => h

theorem Kept.buildStack (hspare : g.spare = some (root, some p))
    (hat : g.AtRest) (hsz : sz ≤ trapframeVa) :
    Triple G (J g) (buildStack me root argv sz) fun r n s => J g n s ∧ r.2 ≤ trapframeVa := by
  obtain ⟨hup, -, -⟩ := pgroundup_le hsz
  refine .bind ((hK.uvmalloc hat.pending (by decide) hup).pre fun n s h => ⟨h, ⟨p, .inr hspare⟩,
      (hK.own h).aboveSpare hat hspare (pgroundup sz)⟩) fun sz1 => ?_
  refine .of_pre (c := sz1 ≤ trapframeVa) (fun n s h => h.2) fun hsz1 => ?_
  refine .ite (fun _ => .pure fun n s h => ⟨h.1, hup⟩) fun hne => ?_
  have hguard : sz1 - (userStack + 1) * pgsize < trapframeVa := by
    simp only [userStack, pgsize] at *
    omega
  refine .bind ((hK.uvmclear hspare hguard).pre fun n s h => h.1) fun _ => ?_
  refine .bind (hK.pushArgs hat argv) fun r => ?_
  cases r with
  | none => exact .pure fun n s h => ⟨h, hsz1⟩
  | some st =>
    exact .bind (hK.pushUstack hat) fun r => .pure fun n s h => ⟨h, hsz1⟩

/-- The new table becomes that of the process, the old one spare. -/
theorem Kept.commitImage {old entry : Nat}
    (hat : g.AtRest) (hspare : g.spare = some (root, some me)) (hsz : sz ≤ trapframeVa) :
    Triple G (fun n s => J g n s ∧ (s.proc me).pagetable = some old)
      (commitImage me root sz entry sp) fun _ => J { g with spare := some (old, none) } := by
  refine .bind (M := fun _ n' s => ∃ n, n' = n ++ [(.commit me, s)] ∧ J g n s
    ∧ (s.proc me).pagetable = some old ∧ G (.commit me) s)
    (.note fun n s h hG => ⟨n, rfl, h.1, h.2, hG⟩) fun _ => ?_
  refine .bind (M := fun _ => J { g with spare := some (old, none) })
    (.modify ?_) fun _ => hK.aside fun s => .mem s _
  rintro n' s ⟨n, rfl, hJ, hpt, hG⟩
  refine hK.move hJ (.commit hat.pending hspare ⟨hat.alive _, hpt⟩ hsz) ?_
  simpa using hG

theorem Kept.kexec {exe : Option Exe} (tf : Nat) (hspare : g.spare = none) (hat : g.AtRest) :
    Triple G (fun n s => J g n s ∧ (s.proc me).trapframe = some tf)
      (kexec me exe argv) fun _ => J g := by
  have hg : { g with spare := none } = g := by
    rw [← hspare]
  cases exe with
  | none => exact .pure fun n s h => h.1
  | some exe =>
    unfold GemOS.kexec
    dsimp only
    cases exe.elf with
    | none => exact .pure fun n s h => h.1
    | some elf =>
      refine .ite (fun _ => .pure fun n s h => h.1) fun _ => ?_
      refine .bind (hK.procPagetable hspare) fun r => ?_
      cases r with
      | none =>
        refine .pure fun n s h => ?_
        rw [← hg]
        exact h
      | some root =>
        -- tearing a spare table down, on every way out
        have hfree : ∀ {sz r : Nat} {x : Option ProcId} {v : Int}, sz ≤ trapframeVa →
            Triple G (J { g with spare := some (r, x) })
              (do GemOS.procFreepagetable r sz; return v) fun _ => J g := by
          intro sz r x v hsz
          refine .bind (hK.procFreepagetable rfl hsz) fun _ => .pure fun n s h => ?_
          rw [← hg]
          exact h
        refine .bind (hK.loadProgram (g := { g with
          spare := some (root, some me) }) rfl ⟨hat.pending, hat.dying⟩ _
          (Nat.zero_le _))
          fun r => ?_
        refine .of_pre (c := r.2 ≤ trapframeVa) (fun n s h => h.2) fun hsz => ?_
        refine .ite (fun _ => (hfree hsz).pre fun n s h => h.1) fun _ => ?_
        refine .get_bind fun s0 => .of_pre (c := (s0.proc me).sz ≤ trapframeVa) ?_ fun hold => ?_
        · rintro n s ⟨⟨hJ, -⟩, rfl⟩
          exact (hK.own hJ).sz me
        refine .bind ((hK.buildStack (g := { g with
          spare := some (root, some me) }) rfl ⟨hat.pending, hat.dying⟩ hsz).pre
          fun n s h => h.1.1) fun r' => ?_
        refine .of_pre (c := r'.2 ≤ trapframeVa) (fun n s h => h.2) fun hsz' => ?_
        obtain ⟨sp, sz'⟩ := r'
        cases sp with
        | none => exact (hfree hsz').pre fun n s h => h.1
        | some sp =>
          refine .bind (Kept.pagetableOf me) fun old => ?_
          refine .bind ((hK.commitImage (g := { g with
            spare := some (root, some me) }) ⟨hat.pending, hat.dying⟩ rfl hsz').pre
            fun n s h => ⟨h.1.1, h.2⟩) fun _ => ?_
          exact hfree hold

-- ======== operations

theorem Kept.whileRunning {α : Type} {x : K α} (hat : g.AtRest) (hx : Triple G
      (fun n s => (J g n s ∧ ∃ root, (s.proc p).pagetable = some root)
        ∧ ∃ tf, (s.proc p).trapframe = some tf) x fun _ => J g) :
    Triple G (J g) (whileRunning p x) fun _ => J g := by
  refine .get_bind fun s0 => .ite (fun hrun => ?_) fun _ => .pure fun n s h => h.1
  refine .bind (hx.pre ?_) fun _ => .pure fun n s h => h
  rintro n s ⟨hJ, rfl⟩
  -- a running process has a table, and that maps its trapframe
  have hown := hK.own hJ
  have hp := hat.alive p
  obtain ⟨root, hroot⟩ := Option.ne_none_iff_exists'.mp
    ((hown.procs p hp).table (by rw [hrun]; exact nofun) (by rw [hrun]; exact nofun))
  exact ⟨⟨hJ, root, hroot⟩, _, (hown.attached p root ⟨hp, hroot⟩).2.1.trapframe.2⟩

theorem Kept.usertrapFault (hat : g.AtRest) :
    Triple G (J g) (usertrapFault me va) fun _ => J g := by
  refine .bind (Kept.pagetableOf me) fun root => ?_
  refine .bind ((hK.vmfault hat).keep (spaces_vmfault ..)
    fun sp => (sp me).pagetable = some root) fun r =>
    .ite (fun _ => .pure fun n s h => h.1) fun _ => ?_
  refine .bind (.modify fun n s h => ⟨hK.quiet h.1 (.aside (.upd rfl rfl rfl
    (fun hs => ⟨hs.unused, hs.used, hs.table⟩) fun _ => rfl)), root, ?_⟩) fun _ => hK.kexit
  exact (s.updProc_field Proc.pagetable me rfl me).trans h.2

theorem Kept.userStore {b : UInt8} (hat : g.AtRest) :
    Triple G (J g) (userStore me va b) fun _ => J g := by
  refine .bind (Kept.pagetableOf me) fun root => .get_bind fun s0 => ?_
  refine .ite (fun _ => ?_) fun _ => ?_
  · exact (hK.aside fun s => .mem s _).pre fun n s h => h.1.1
  · exact (hK.usertrapFault hat).pre fun n s h => h.1.1

omit hK in
/-- The scheduler, the clock and the settings of the disk. -/
theorem Aside.settings {policy : DiskPolicy} {mode : RaidMode} {ticks : Nat} : Aside s { s with
      diskSchedPolicy := policy, raidMode := mode, ticks := ticks } :=
  { Aside.refl s with idle := fun h => h.congr rfl rfl }

omit hK in
theorem Aside.schedule (s : Kernel) (p : ProcId) (state : ProcState) (level : Fin mlfqLevels) :
    Aside s (if (s.proc p).state.scheduled ∧ state.scheduled then
      s.updProc p fun q => { q with state := state, level := level } else s) := by
  split
  · rename_i h
    have hlive : ∀ st : ProcState, st.scheduled = true → st ≠ .unused ∧ st ≠ .used := by
      intro st hst
      constructor <;> rintro rfl <;> cases hst
    refine .upd rfl rfl rfl (fun hs => ?_) fun _ => rfl
    exact ⟨fun hu => absurd hu (hlive state h.2).1, fun hu => absurd hu (hlive state h.2).2,
      fun _ _ => hs.table (hlive _ h.1).1 (hlive _ h.1).2⟩
  · exact .refl s

/-- Every operation keeps the invariant. -/
theorem Kept.op (o : Op) : Triple G (J .empty) o.prog fun _ => J .empty := by
  have hrun : ∀ {α : Type} {p : ProcId} {x : K α}, Triple G (J .empty) x (fun _ => J .empty) →
      Triple G (J .empty) (GemOS.whileRunning p x) fun _ => J .empty :=
    fun hx => hK.whileRunning ⟨rfl, rfl⟩ (hx.pre fun n s h => h.1.1)
  have hrun' : ∀ {α : Type} {p : ProcId} {x : K α}, Triple G (fun n s => J .empty n s
        ∧ ∃ root, (s.proc p).pagetable = some root) x (fun _ => J .empty) →
      Triple G (J .empty) (GemOS.whileRunning p x) fun _ => J .empty :=
    fun hx => hK.whileRunning ⟨rfl, rfl⟩ (hx.pre fun n s h => h.1)
  cases o with
  | userinit => exact hK.userinit ⟨rfl, rfl⟩ rfl
  | sbrk p n eager => exact hrun' (hK.sysSbrk ⟨rfl, rfl⟩)
  | store p va b => exact hrun (hK.userStore ⟨rfl, rfl⟩)
  | fault p va => exact hrun (hK.usertrapFault ⟨rfl, rfl⟩)
  | copyin p srcva len =>
    exact hrun (.bind (Kept.pagetableOf p) fun root => (hK.copyin ⟨rfl, rfl⟩).pre fun n s h => h.1)
  | copyout p dstva src =>
    exact hrun (.bind (Kept.pagetableOf p) fun root => (hK.copyout ⟨rfl, rfl⟩).pre fun n s h => h.1)
  | fork p => exact hrun (hK.kfork rfl ⟨rfl, rfl⟩)
  | exec p exe argv =>
    refine hK.whileRunning ⟨rfl, rfl⟩ (.of_eq fun n0 s0 h => ?_)
    obtain ⟨⟨hJ, -⟩, tf, htf⟩ := h
    refine (hK.kexec tf rfl ⟨rfl, rfl⟩).pre ?_
    rintro n s ⟨rfl, rfl⟩
    exact ⟨hJ, htf⟩
  | exit p status => exact hrun' hK.kexit
  | wait p addr => exact hrun (hK.kwait rfl ⟨rfl, rfl⟩)
  | setdisksched policy =>
    refine .bind ?_ fun _ => .pure fun n s h => h
    refine .ite (fun _ => ?_) fun _ => .ite (fun _ => ?_) fun _ => .pure fun n s h => h
    · exact .bind (hK.aside fun s => .settings) fun _ => .pure fun n s h => h
    · exact .bind (hK.aside fun s => .settings) fun _ => .pure fun n s h => h
  | setRaidMode mode =>
    refine hK.aside fun s => ?_
    split
    · exact .settings
    · split
      · exact .settings
      · split
        · exact .settings
        · exact .refl s
  | schedule p state level => exact hK.aside fun s => .schedule s p state level
  | tick => exact hK.aside fun s => .settings
  | interfere ops =>
    refine hK.aside fun s => ?_
    obtain ⟨fl, hd, m, hs, hp⟩ := EnvOp.foldl_shape ops s
    rw [hs]
    exact .turn hp
  | script env => exact hK.aside fun s => .turn (.refl _)

/-- An invariant of the moves that holds at start-up holds in every state
the system reaches. -/
theorem Kept.runs (hboot : ∀ s, Booted s → J .empty [] s) (h : Runs G n s) : J .empty n s :=
  h.invariant hboot hK.op

end

-- ======== ownership

/-- Only frames whose entries tell the truth are swapped out. -/
def EntriesAccurate : Mark → Kernel → Prop
  | .swapOut idx, s => Accurate s idx
  | _, _ => True

theorem own_kept : Kept EntriesAccurate fun g _ s => Own g s where
  own h := h
  move h m _ := h.move m
  accurate _ _ h := h

/-- No page has two uses after any run in which the frame table is right
about every frame that is swapped out. -/
theorem Runs.own (h : Runs EntriesAccurate n s) : Own .empty s :=
  own_kept.runs (fun _ hb => hb.own) h

end GemOS
