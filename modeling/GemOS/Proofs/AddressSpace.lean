/-
Address spaces stay well formed.

`AllBounded` is the invariant: no process has a mapping above its size.
It is kept by every operation that a process can ask for (`Op.Fits`:
`sbrk` takes an `int`, and the arguments of `exec` come out of
`fetchstr`, a page each). From it follow the rest: `mappages` finds no
valid leaf where memory grows, `freewalk` finds none when a table goes,
and `exit` leaves no page behind.
-/
import GemOS.Proofs.PagesExclusive
import GemOS.Proofs.Faults

namespace GemOS

open Prog

/-- The arguments of a system call are what the call can carry. -/
def Op.Fits : Op → Prop
  | .sbrk _ n _ => -2 ^ 31 ≤ n ∧ n < 2 ^ 31
  | .exec _ _ argv => ∀ a ∈ argv, a.length < pgsize
  | _ => True

/-- The table of every process is bounded by its size. -/
def AllBounded (s : Kernel) : Prop :=
  ∀ p root, (s.proc p).pagetable = some root → Bounded (s.proc p).sz (s.pagetables root).leaf

-- ======== ownership

/-- Pages of RAM above the kernel image. -/
def Ram (k pa : Nat) : Prop := RamPage pa ∧ k ≤ pa

theorem ram_ne_zero {k pa : Nat} (h : Ram k pa) : pa ≠ 0 := by
  rintro rfl
  have := h.1.2.1
  simp only [kernbase] at this
  omega

section own

variable {s : Kernel} {p : ProcId} {root : Nat} (h : Own .empty s)

include h

theorem Own.stock : Stock s.kend (Ram s.kend) s := by
  refine ⟨rfl, fun pa hpa => ?_⟩
  rcases List.mem_append.mp hpa with hpa | hpa
  · exact h.ram .free pa hpa
  · exact h.ram .held pa hpa

theorem Own.avail_nodup : s.avail.Nodup := by
  have hnd := h.nodup
  rw [show Ghost.empty.hand = [] from rfl, List.append_nil] at hnd
  exact hnd

theorem Own.avail_length : s.avail.length ≤ ramPages :=
  length_le_ramPages h.avail_nodup fun pa hpa => (h.stock.avail pa hpa).1

/-- A page in use is not available. -/
theorem Own.not_avail {u : Use} {pa : Nat}
    (hu : Holds .empty s u pa) (hfree : u ≠ .free) (hheld : u ≠ .held) : pa ∉ s.avail := by
  intro hpa
  rcases List.mem_append.mp hpa with hpa | hpa
  · have hf : Holds .empty s .free pa := hpa
    exact hfree (h.exclusive hu hf)
  · have hf : Holds .empty s .held pa := hpa
    exact hheld (h.exclusive hu hf)

theorem Own.live (hp : (s.proc p).pagetable = some root) : (s.pagetables root).live = true :=
  (h.attached p root ⟨nofun, hp⟩).1

theorem Own.root_not_avail (hp : (s.proc p).pagetable = some root) : root ∉ s.avail := by
  have hroot : Holds .empty s (.root root) root := ⟨rfl, h.live hp⟩
  exact h.not_avail hroot nofun nofun

theorem Own.leaf_not_avail {v : Nat} (hv : v < userPages)
    (hV : isV ((s.pagetables root).leaf v) = true) :
    pte2pa ((s.pagetables root).leaf v) ∉ s.avail := by
  have hleaf : Holds .empty s (.leaf root v) _ := ⟨hv, hV, rfl⟩
  exact h.not_avail hleaf nofun nofun

/-- The table of a process is made of pages of RAM. -/
theorem Own.good (hp : (s.proc p).pagetable = some root) :
    (s.pagetables root).Good (Ram s.kend) root where
  live := h.live hp
  root := h.ram (.root root) root ⟨rfl, h.live hp⟩
  dir i pa hi := h.ram (.dir root i) pa hi
  mid j pa hj := h.ram (.mid root j) pa hj
  leaf v hv hV := h.ram (.leaf root v) _ ⟨hv, hV, rfl⟩

theorem Own.unused (hp : (s.proc p).state = .unused) :
    (s.proc p).pagetable = none ∧ (s.proc p).trapframe = none ∧ (s.proc p).sz = 0 :=
  (h.procs p nofun).unused hp

/-- No two processes share a table. -/
theorem Own.same_table {q : ProcId} (hp : (s.proc p).pagetable = some root)
    (hq : (s.proc q).pagetable = some root) : p = q :=
  h.apart p q root ⟨nofun, hp⟩ ⟨nofun, hq⟩

/-- A running process has its table. -/
theorem Own.mapped (hp : (s.proc p).state = .running) : ∃ root, Mapped p root s := by
  obtain ⟨root, hroot⟩ := Option.ne_none_iff_exists'.mp
    ((h.procs p nofun).table (by rw [hp]; exact nofun) (by rw [hp]; exact nofun))
  exact ⟨root, hroot, h.live hroot, h.sz p⟩

end own

-- ======== the steps

section steps

variable {s s' : Kernel} {me : ProcId}

section

variable (h : AllBounded s)

include h

/-- A process keeps its table, its size and its leaves, or is bounded
anew. -/
theorem AllBounded.frame (hsame : ∀ q r, (s'.proc q).pagetable = some r →
      ((s.proc q).pagetable = some r ∧ (s'.proc q).sz = (s.proc q).sz
        ∧ (s'.pagetables r).leaf = (s.pagetables r).leaf)
      ∨ Bounded (s'.proc q).sz (s'.pagetables r).leaf) :
    AllBounded s' := by
  intro q r hq
  rcases hsame q r hq with ⟨hq', hsz, hl⟩ | hb
  · rw [hsz, hl]
    exact h q r hq'
  · exact hb

/-- Neither tables nor sizes change. -/
theorem AllBounded.same (hpt : ∀ q, (s'.proc q).pagetable = (s.proc q).pagetable)
    (hsz : ∀ q, (s'.proc q).sz = (s.proc q).sz)
    (htab : s'.pagetables = s.pagetables) : AllBounded s' :=
  h.frame fun q r hq => .inl ⟨(hpt q).symm.trans hq, hsz q, by rw [htab]⟩

theorem wp_kexit {status : Int} : wp Benign (kexit me status) (fun _ => AllBounded) s := by
  refine .get_bind (.ite (fun _ => .fault (by decide)) fun _ => .modify ?_)
  have hrep := Aside.reparent s me
  refine h.same (fun q => ?_) (fun q => ?_) rfl
  · exact ((s.reparent me).updProc_field Proc.pagetable me rfl q).trans (hrep.pagetable q)
  · exact ((s.reparent me).updProc_field Proc.sz me rfl q).trans (hrep.sz q)

variable (hown : Own .empty s)

include hown

/-- Faults map below the size. -/
theorem AllBounded.grows (hg : Grows me s s') : AllBounded s' := by
  intro q r hq v hV
  obtain ⟨hpt, hsz, -⟩ := spaces_eq hg.spaces q
  rw [hpt] at hq
  rw [hsz]
  rcases hg.leaf r v hV with hV' | ⟨hme, hv⟩
  · exact h q r hq v hV'
  · rw [hown.same_table hq hme]
    exact .inl hv

theorem wp_usertrapFault {va root : Nat} (hm : Mapped me root s) :
    wp Benign (usertrapFault me va) (fun _ => AllBounded) s := by
  refine wp_pagetableOf hm.table (.bind (wp_vmfault hm.table hm.live hm.size) fun r s1 hg => ?_)
  have h1 := h.grows hown hg
  refine .ite (fun _ => .pure h1) fun _ => .modify_bind (wp_kexit ?_)
  exact h1.same (s1.updProc_field Proc.pagetable me rfl) (s1.updProc_field Proc.sz me rfl) rfl

theorem wp_userStore {va root : Nat} {b : UInt8} (hm : Mapped me root s) :
    wp Benign (userStore me va b) (fun _ => AllBounded) s := by
  refine wp_pagetableOf hm.table (.get_bind (.ite (fun _ => .modify ?_) fun _ =>
    wp_usertrapFault h hown hm))
  exact h.same (fun _ => rfl) (fun _ => rfl) rfl

/-- A new slot is bounded, and the others are as before. -/
theorem AllBounded.slot {k np root tf} {F : Nat → Prop}
    (hn : NewSlot k F s np root tf s') : AllBounded s' := by
  refine h.frame fun q r hq => ?_
  by_cases hqp : q = np
  · grind [hn.table, hn.sz, hn.bounded]
  · grind [hn.procs, hown.root_not_avail, hn.fresh, hn.others]

/-- A process that got no further than a free slot. -/
theorem AllBounded.none (hgive : GivenUp s s')
    (htab : ∀ r, r ∉ s.avail → s'.pagetables r = s.pagetables r) : AllBounded s' := by
  refine h.frame fun q r hq => .inl ?_
  have heq : s'.proc q = s.proc q := by
    rcases hgive with h | ⟨p, -, hp, hothers⟩
    · exact congrFun h q
    · refine hothers q fun hqp => ?_
      rw [hqp, hp.2.1] at hq
      cases hq
  rw [heq] at hq ⊢
  exact ⟨hq, rfl, by rw [htab r (hown.root_not_avail hq)]⟩

theorem wp_userinit : wp Benign userinit (fun _ => AllBounded) s := by
  refine .bind (wp_allocproc (.ram Benign s.kend) hown.stock
    fun p hp => hown.unused hp) fun r s1 hc => ?_
  cases hc with
  | none => exact .fault (by decide)
  | @slot p _ _ _ hn =>
    have hrun : AllBounded (s1.updProc p fun q => { q with state := .runnable }) :=
      (h.slot hown hn).same (s1.updProc_field Proc.pagetable p rfl)
        (s1.updProc_field Proc.sz p rfl) rfl
    exact .modify (hrun.same (fun _ => rfl) (fun _ => rfl) rfl)

/-- The child is bounded as its parent is. -/
theorem wp_fork {root : Nat} (hm : Mapped me root s) :
    wp Benign (kfork me) (fun _ => AllBounded) s := by
  refine (wp_kfork (.ram Benign s.kend) hown.stock hown.avail_nodup
    (fun p hp => hown.unused hp) hm.table (hown.root_not_avail hm.table) hm.live
    hm.size fun v hv hV => hown.leaf_not_avail hv hV).mono fun r s' hf => ?_
  cases hf with
  | none hprocs htab => exact h.none hown hprocs htab
  | @child np root' _ hc =>
    grind [h.frame, hc.table, hc.sz, hc.bounded, hc.procs, hown.root_not_avail, hc.fresh, hc.others]

/-- The new image is bounded by its size. -/
theorem wp_exec {root : Nat} {exe : Option Exe} {argv : List (List UInt8)}
    (hargs : ∀ a ∈ argv, a.length < pgsize) (hm : Mapped me root s) :
    wp Benign (kexec me exe argv) (fun _ => AllBounded) s := by
  refine (wp_kexec (fun _ => ram_ne_zero) (.ram Benign s.kend) (by decide) hargs
    hown.stock hown.avail_length hm.table (hown.root_not_avail hm.table)
    (hown.good hm.table) hm.size (h me root hm.table)).mono fun r s' he => ?_
  cases he with
  | same hproc htab => exact h.none hown (.inl hproc) htab
  | @image root' _ _ hroot hprocs hpt hsz hb htab =>
    grind [h.frame, hown.root_not_avail, hown.same_table, hm.table]

theorem wp_sbrk {root : Nat} {n : Int} {eager : Bool} (hlo : -2 ^ 31 ≤ n)
    (hhi : n < 2 ^ 31) (hm : Mapped me root s) :
    wp Benign (sysSbrk me n eager) (fun _ => AllBounded) s := by
  refine (wp_sysSbrk (.ram Benign s.kend) hlo hhi hown.stock hm.table
    (hown.good hm.table) hm.size (h me root hm.table)).mono fun r s' hr => ?_
  obtain ⟨sz, hs⟩ : ∃ sz, Sized me root sz s s' := by
    rcases hr with ⟨-, hr⟩ | ⟨-, hr⟩ <;> cases hr <;> exact ⟨_, ‹_›⟩
  refine h.frame fun q r hq => ?_
  by_cases hqm : q = me
  · grind [hs.proc, Option.some.inj, hm.table.symm, hs.bounded]
  · grind [hs.procs, hown.same_table, hm.table, hs.others]

/-- A process is dismantled after faults of another one. -/
theorem wp_reap {pp : ProcId} (hg : Grows me s s') :
    wp Benign (freeproc pp) (fun _ => AllBounded) s' := by
  have h' := h.grows hown hg
  have hsp := spaces_eq hg.spaces
  refine (wp_freeproc (.any (by decide) s'.kend) rfl (fun _ _ => trivial)
    (by rw [(hsp pp).2.1]; exact hown.sz pp) fun r hr => ⟨⟨?_, trivial,
      fun _ _ _ => trivial, fun _ _ _ => trivial, fun _ _ _ => trivial⟩,
      h' pp r hr⟩).mono fun _ s2 hreap => ?_
  · rw [(hsp pp).1] at hr
    exact (hg.live r).trans (hown.live hr)
  refine h'.frame fun q r hq => .inl ?_
  by_cases hqp : q = pp
  · subst hqp
    rw [hreap.slot.2.1] at hq
    cases hq
  · grind [hreap.procs, hown.same_table, hreap.others]

theorem wp_kwait {root addr : Nat}
    (hm : Mapped me root s) : wp Benign (kwait me addr) (fun _ => AllBounded) s := by
  refine .get_bind ?_
  cases s.zombieChild me with
  | none => exact .ite (fun _ => .pure h) fun _ => .pure h
  | some pp =>
    have hrest : ∀ (r : Int) (s1 : Kernel), Grows me s s1 → wp Benign
        (if r < 0 then return some (-1) else do
          freeproc pp
          return some (s.proc pp).pid : K (Option Int))
        (fun _ => AllBounded) s1 := fun r s1 hg =>
      .ite (fun _ => .pure (h.grows hown hg)) fun _ =>
        .bind (wp_reap h hown hg) fun _ _ h2 => .pure h2
    refine .ite (fun _ => wp_pagetableOf hm.table
      (.bind (wp_copyout hm _ _) fun r s1 hg => hrest r s1 hg)) fun _ =>
      .pure_bind (hrest 0 s (.refl me s))

/-- Every operation keeps the address spaces bounded, and panics for no
reason that has to do with them. -/
theorem wp_op {o : Op} (hfit : o.Fits) : wp Benign o.prog (fun _ => AllBounded) s := by
  have hrun : ∀ {α : Type} {p : ProcId} {x : K α},
      (∀ root, Mapped p root s → wp Benign x (fun _ => AllBounded) s) →
      wp Benign (whileRunning p x) (fun _ => AllBounded) s := by
    intro α p x hx
    refine .get_bind (.ite (fun hp => ?_) fun _ => .pure h)
    obtain ⟨root, hm⟩ := hown.mapped hp
    exact .bind (hx root hm) fun _ _ h1 => .pure h1
  cases o with
  | userinit => exact wp_userinit h hown
  | sbrk p n eager => exact hrun fun root hm => wp_sbrk h hown hfit.1 hfit.2 hm
  | store p va b => exact hrun fun root hm => wp_userStore h hown hm
  | fault p va => exact hrun fun root hm => wp_usertrapFault h hown hm
  | copyin p srcva len =>
    refine hrun fun root hm => wp_pagetableOf hm.table ?_
    exact (wp_copyin hm srcva len).mono fun _ _ hg => h.grows hown hg
  | copyout p dstva src =>
    refine hrun fun root hm => wp_pagetableOf hm.table ?_
    exact (wp_copyout hm dstva src).mono fun _ _ hg => h.grows hown hg
  | fork p => exact hrun fun root hm => wp_fork h hown hm
  | exec p exe argv => exact hrun fun root hm => wp_exec h hown hfit hm
  | exit p status => exact hrun fun root hm => wp_kexit h
  | wait p addr => exact hrun fun root hm => wp_kwait h hown hm
  | setdisksched policy =>
    refine .bind (M := fun _ => AllBounded) ?_ fun _ _ h1 => .pure h1
    refine .ite (fun _ => ?_) fun _ => .ite (fun _ => ?_) fun _ => .pure h
    · exact .modify_bind (.pure (h.same (fun _ => rfl) (fun _ => rfl) rfl))
    · exact .modify_bind (.pure (h.same (fun _ => rfl) (fun _ => rfl) rfl))
  | setRaidMode mode =>
    refine .modify (h.same (fun q => ?_) (fun q => ?_) ?_) <;>
      (split <;> [rfl; (split <;> [rfl; (split <;> rfl)])])
  | schedule p state level =>
    have hs := Aside.schedule s p state level
    exact .modify (h.same hs.pagetable hs.sz hs.tables)
  | tick => exact .modify (h.same (fun _ => rfl) (fun _ => rfl) rfl)
  | interfere ops =>
    refine .modify ?_
    obtain ⟨fl, hd, m, hs, -⟩ := EnvOp.foldl_shape ops s
    show AllBounded (ops.foldl EnvOp.apply s)
    rw [hs]
    exact h.same (fun _ => rfl) (fun _ => rfl) rfl
  | script env => exact .modify (h.same (fun _ => rfl) (fun _ => rfl) rfl)

end

end steps

-- ======== the runs

/-- No frame is swapped out. -/
def NoEviction : Mark → Kernel → Prop
  | .swapOut _, _ => False
  | _, _ => True

/-- The runs of operations with arguments a call can carry, in which no
fault evicts a page. -/
abbrev QuietRuns : Notes Mark Kernel → Kernel → Prop :=
  Reach NoEviction Booted fun o : { o : Op // o.Fits } => o.1.prog

theorem NoEviction.accurate (m : Mark) (s : Kernel) (h : NoEviction m s) : EntriesAccurate m s := by
  cases m with
  | swapOut idx => exact h.elim
  | _ => trivial

section runs

variable {n : Notes Mark Kernel} {s : Kernel}

theorem QuietRuns.own (h : QuietRuns n s) : Own .empty s := Runs.own (h.embed NoEviction.accurate)

/-- The invariant holds in every run. -/
theorem QuietRuns.allBounded (h : QuietRuns n s) : AllBounded s := by
  induction h with
  | init hb =>
    intro p root hp
    rw [hb.proc p] at hp
    cases hp
  | step o hr hrun _ ih => exact (wp_op ih (QuietRuns.own hr) o.2).ok hrun

end runs

-- ======== what follows of it

/-- Sizes are below the trapframe, and valid user leaves are below the
sizes. -/
def SpacesWellFormed (s : Kernel) : Prop :=
  ∀ p, (s.proc p).sz ≤ trapframeVa ∧ ∀ root, (s.proc p).pagetable = some root →
      ∀ v, isV ((s.pagetables root).leaf v) = true →
        v * pgsize ≠ trapframeVa → v * pgsize ≠ trampolineVa →
        v * pgsize < pgroundup (s.proc p).sz

/-- No operation ends in one of the two panics. -/
def PanicFree (s : Kernel) : Prop :=
  ∀ o : Op, o.Fits → ∀ e, o.prog s = .error e →
    e ≠ .panic "mappages: remap" ∧ e ≠ .panic "freewalk: leaf"

/-- A process whose turn it is to go leaves all its user pages on the
free list. -/
def ExitFrees (s : Kernel) : Prop :=
  ∀ p root, (s.proc p).pagetable = some root → ∃ s' t, freeproc p s = .ok ((), s', t) ∧
      ∀ v < userPages, isV ((s.pagetables root).leaf v) = true →
        pte2pa ((s.pagetables root).leaf v) ∈ s'.freelist

/-- Sizes and mappings of all processes are the same. -/
def SameSpaces (s s' : Kernel) : Prop :=
  ∀ q, (s'.proc q).sz = (s.proc q).sz ∧ (s'.proc q).pagetable = (s.proc q).pagetable
    ∧ ∀ r, (s.proc q).pagetable = some r → SameMappings (s.pagetables r).leaf (s'.pagetables r).leaf

/-- `sbrk` returns; a success moves the size by `n` or, if that would be
negative, changes nothing, and a failure changes nothing. -/
def SbrkExact (s : Kernel) : Prop :=
  ∀ p, (s.proc p).state = .running → ∀ (n : Int) (eager : Bool), -2 ^ 31 ≤ n → n < 2 ^ 31 →
    ∃ r s' t, sysSbrk p n eager s = .ok (r, s', t) ∧ (r = -1 → SameSpaces s s') ∧
      (r ≠ -1 → r = (s.proc p).sz ∧ (0 ≤ ((s.proc p).sz : Int) + n →
          ((s.proc p).sz : Int) + n ≤ trapframeVa ∧ ((s'.proc p).sz : Int) = (s.proc p).sz + n) ∧
        (((s.proc p).sz : Int) + n < 0 → SameSpaces s s'))

section facts

variable {s : Kernel}

/-- The size of one process and the leaves of its own table are all that
was touched. -/
theorem Sized.sameSpaces {p : ProcId} {root : Nat} {s' : Kernel}
    (hown : Own .empty s) (hp : (s.proc p).pagetable = some root)
    (h : Sized p root (s.proc p).sz s s') (hsame : SameMappings (s.pagetables root).leaf
      (s'.pagetables root).leaf) : SameSpaces s s' := by
  intro q
  by_cases hq : q = p
  · grind [h.proc, Option.some.inj, hp.symm]
  · rw [h.procs q hq]
    refine ⟨rfl, rfl, fun r hr => ?_⟩
    have hne : r ≠ root := fun heq => hq (hown.same_table (heq ▸ hr) hp)
    rw [h.others r hne]
    exact .refl _

variable (h : AllBounded s) (hown : Own .empty s)

include h hown

theorem AllBounded.spacesWellFormed : SpacesWellFormed s := by
  refine fun p => ⟨hown.sz p, fun root hp v hV htf htr => ?_⟩
  rw [pgroundup_pagesOf (hown.sz p)]
  rcases h p root hp v hV with hv | rfl | rfl
  · exact Nat.mul_lt_mul_of_pos_right hv (by decide)
  · exact absurd (by decide) htf
  · exact absurd (by decide) htr

theorem AllBounded.panicFree : PanicFree s :=
  fun _ hfit _ hrun => (wp_op h hown hfit).error hrun

theorem AllBounded.exitFrees : ExitFrees s := by
  intro p root hp
  have hfree := wp_freeproc (p := p) (.ram (fun _ => False) s.kend) rfl
    (fun tf htf => hown.ram (.trapframe p) tf htf) (hown.sz p) fun r hr => ⟨hown.good hr, h p r hr⟩
  obtain ⟨_, s', t, hrun, hreap⟩ := hfree.total
  exact ⟨s', t, hrun, hreap.freed root hp⟩

theorem AllBounded.sbrkExact : SbrkExact s := by
  intro p hrun n eager hlo hhi
  obtain ⟨root, hm⟩ := hown.mapped hrun
  have hwp : wp (fun _ => False) (sysSbrk p n eager) _ s :=
    wp_sysSbrk (.ram _ s.kend) hlo hhi hown.stock hm.table
      (hown.good hm.table) hm.size (h p root hm.table)
  obtain ⟨r, s', t, hok, hr⟩ := hwp.total
  refine ⟨r, s', t, hok, ?_, ?_⟩
  · intro hfail
    rcases hr with ⟨hr, -⟩ | ⟨-, hres⟩
    · omega
    · cases hres with
      | failed hs hsame => exact hs.sameSpaces hown hm.table hsame
  · intro hne
    rcases hr with ⟨hr, hres⟩ | ⟨hr, -⟩
    · refine ⟨hr, ?_⟩
      cases hres with
      | moved hsz htop hs => grind [hs.proc]
      | wrapped hneg hs hsame =>
        exact ⟨fun _ => by omega, fun _ => hs.sameSpaces hown hm.table hsame⟩
    · exact absurd hr hne

end facts

/-- In every state of such a run the address spaces are well formed; the
two panics are out of reach, a process that goes frees what it had, and
`sbrk` does exactly what it says. -/
theorem address_spaces_well_formed {n : Notes Mark Kernel} {s : Kernel} (h : QuietRuns n s) :
    SpacesWellFormed s ∧ PanicFree s ∧ ExitFrees s ∧ SbrkExact s :=
  have hb := h.allBounded
  have hown := h.own
  ⟨hb.spacesWellFormed hown, hb.panicFree hown, hb.exitFrees hown, hb.sbrkExact hown⟩

/-- A process that grows lazily, touches its page, forks and gives a part
of the page back. -/
def forkPage : List { o : Op // o.Fits } :=
  [⟨.userinit, trivial⟩, ⟨.schedule 0 .running 3, trivial⟩,
    ⟨.sbrk 0 4096 false, by unfold Op.Fits; decide⟩, ⟨.fault 0 0, trivial⟩,
    ⟨.fork 0, trivial⟩, ⟨.sbrk 0 (-100) true, by unfold Op.Fits; decide⟩]

theorem address_spaces_well_formed_forked :
    ∃ n s, QuietRuns n s ∧ (s.proc 0).sz = 3996 ∧ (s.proc 1).sz = 4096 ∧ isV (s.procPte 1 0) = true
      ∧ SpacesWellFormed s ∧ PanicFree s ∧ ExitFrees s ∧ SbrkExact s := by
  have hboot : QuietRuns [] smallBoot := .init smallBoot_booted
  obtain ⟨n, s, hr, -, hsz, hsz', hV⟩ := hboot.played (P := fun n s =>
    n.all (fun x => !x.1.isSwapOut) = true ∧ (s.proc 0).sz = 3996 ∧ (s.proc 1).sz = 4096
      ∧ isV (s.procPte 1 0) = true) (fun n s hP x hx => by
    have hno := List.all_eq_true.mp hP.1 x hx
    obtain ⟨m, t⟩ := x
    cases m with
    | swapOut idx => cases hno
    | _ => trivial) forkPage (by decide +kernel)
  exact ⟨n, s, hr, hsz, hsz', hV, address_spaces_well_formed hr⟩

-- ======== fork and traps

section calls

variable {n : Notes Mark Kernel} {s : Kernel} {me : ProcId}

/-- `fork` returns. The child has the size of its parent and, on pages that
were free, its bytes and permissions; nobody else is touched. After a
failure everybody is as before, but for the free slot that was tried. -/
theorem fork_copies (h : Runs EntriesAccurate n s) (hrun : (s.proc me).state = .running) :
    ∃ old r s' t, (s.proc me).pagetable = some old ∧ kfork me s = .ok (r, s', t)
      ∧ Forked s me old r s' := by
  have hown := h.own
  obtain ⟨old, hm⟩ := hown.mapped hrun
  have hwp : wp (fun _ => False) (kfork me) (Forked s me old) s :=
    wp_kfork (.ram _ s.kend) hown.stock hown.avail_nodup (fun p hp => hown.unused hp) hm.table
      (hown.root_not_avail hm.table) hm.live hm.size fun v hv hV => hown.leaf_not_avail hv hV
  obtain ⟨r, s', t, hok, hf⟩ := hwp.total
  exact ⟨old, r, s', t, hm.table, hok, hf⟩

/-- A process with one page, whose `fork` makes process 2. -/
theorem runs_grown : ∃ n s, Runs EntriesAccurate n s ∧ (s.proc 0).state = .running
    ∧ (s.proc 0).sz = 4096 ∧ (∀ r s' t, kfork 0 s = .ok (r, s', t) → r = 2) := by
  have hboot : Runs EntriesAccurate [] smallBoot := .init smallBoot_booted
  obtain ⟨n, s, hr, -, hrun, hsz, hfork⟩ := hboot.played (P := fun n s =>
    n.all (fun x => entriesAccurate x.1 x.2) = true ∧ (s.proc 0).state = .running
      ∧ (s.proc 0).sz = 4096 ∧ (match kfork 0 s with
        | .ok (r, _, _) => decide (r = 2)
        | .error _ => false) = true)
    (fun _ _ hP x hx => entriesAccurate_of_check _ _ (List.all_eq_true.mp hP.1 x hx))
    [.userinit, .schedule 0 .running 3, .sbrk 0 4096 true] (by decide +kernel)
  refine ⟨n, s, hr, hrun, hsz, fun r s' t h => ?_⟩
  rw [h] at hfork
  exact of_decide_eq_true hfork

theorem fork_copies_grown : ∃ n s np old root s' t, Runs EntriesAccurate n s
    ∧ (s.proc 0).sz = 4096 ∧ kfork 0 s = .ok (2, s', t) ∧ (s'.proc np).pid = 2
    ∧ Child s 0 np old root s' := by
  obtain ⟨n, s, hr, hrun, hsz, hfork⟩ := runs_grown
  obtain ⟨old, r, s', t, -, hok, hf⟩ := fork_copies hr hrun
  have hpid := hfork r s' t hok
  rw [hpid] at hok
  cases hf with
  | @child np root _ hc => exact ⟨n, s, np, old, root, s', t, hr, hsz, hok, hpid, hc⟩
  | none _ _ => cases hpid

/-- The table of a process that is not being set up maps the trampoline
and the trapframe where `trampoline.S` needs them. -/
theorem trap_pages_mapped (h : Runs EntriesAccurate n s) (hunused : (s.proc me).state ≠ .unused)
    (hused : (s.proc me).state ≠ .used) :
    isV (s.procPte me trampolineVa) = true ∧ pte2pa (s.procPte me trampolineVa) = s.trampoline
      ∧ isV (s.procPte me trapframeVa) = true
      ∧ (s.proc me).trapframe = some (pte2pa (s.procPte me trapframeVa)) := by
  have hown := h.own
  obtain ⟨root, hroot⟩ := Option.ne_none_iff_exists'.mp ((hown.procs me nofun).table hunused hused)
  obtain ⟨-, hfixed, -⟩ := hown.attached me root ⟨nofun, hroot⟩
  unfold Kernel.procPte
  rw [hroot]
  exact ⟨hfixed.trampoline.1, hfixed.trampoline.2, hfixed.trapframe.1, hfixed.trapframe.2⟩

theorem trap_pages_mapped_grown : ∃ n s, Runs EntriesAccurate n s
    ∧ (s.proc 0).state = .running ∧ pte2pa (s.procPte 0 trampolineVa) = s.trampoline
    ∧ (s.proc 0).trapframe = some (pte2pa (s.procPte 0 trapframeVa)) := by
  obtain ⟨n, s, hr, hrun, -⟩ := runs_grown
  have h := trap_pages_mapped hr (by rw [hrun]; exact nofun) (by rw [hrun]; exact nofun)
  exact ⟨n, s, hr, hrun, h.2.1, h.2.2.2⟩

end calls

end GemOS
