/-
Faults and swaps leave every process its address space: whatever they
map, unmap or count, no process gets another table, another size or
another state (`Kernel.spaces`). The functions that only read or write
tables, frames, swap entries and the disk queue keep the whole process
table; the others change statistics.
-/
import GemOS.Kernel.Exec
import GemOS.Proofs.Interleave

namespace GemOS

open Function Prog

/-- A process without its memory statistics. -/
def Proc.space (q : Proc) : Proc := { q.bare with residentPages := 0 }

def Kernel.spaces (s : Kernel) : ProcId → Proc := fun p => (s.proc p).space

/-- What the address space of a process consists of. -/
theorem spaces_eq {s s' : Kernel} (h : s'.spaces = s.spaces) (p : ProcId) :
    (s'.proc p).pagetable = (s.proc p).pagetable
      ∧ (s'.proc p).sz = (s.proc p).sz ∧ (s'.proc p).state = (s.proc p).state
      ∧ (s'.proc p).trapframe = (s.proc p).trapframe := by
  have hp := congrFun h p
  have hpt := congrArg Proc.pagetable hp
  have hsz := congrArg Proc.sz hp
  have hst := congrArg Proc.state hp
  have htf := congrArg Proc.trapframe hp
  exact ⟨hpt, hsz, hst, htf⟩

abbrev KeepsSpaces {α : Type} (x : K α) : Prop := Keeps Kernel.spaces x

/-- Only tables, free pages and memory are touched. -/
theorem spaces_beside {α : Type} {x : K α} (h : Keeps Kernel.beside x) : KeepsSpaces x :=
  h.comp Kernel.spaces

/-- Statistics are not part of the address space. -/
theorem spaces_updProc {s : Kernel} {p : ProcId} {f : Proc → Proc}
    (hf : ∀ q, (f q).space = q.space) : (s.updProc p f).spaces = s.spaces := by
  funext q
  show (update s.proc p (f (s.proc p)) q).space = (s.proc q).space
  by_cases hq : q = p
  · rw [hq, update_self, hf]
  · rw [update_of_ne hq]

-- ======== requests

/-- What a request does not touch, whatever is pending. -/
def Kernel.offDisk (s : Kernel) : (ProcId → Proc) × (Nat → FrameEntry) × (Nat → PageTable) :=
  (s.spaces, s.frameTable, s.pagetables)

/-- A page is taken out of the free list. -/
theorem offDisk_kalloc : Keeps Kernel.offDisk kalloc := by
  intro s r s' t h
  obtain ⟨-, fl, hd, m, e, rfl, -⟩ := kalloc_ok h
  rfl

theorem offDisk_kfree (pa : Nat) : Keeps Kernel.offDisk (kfree pa) :=
  .bind .get fun _ => .ite (.fault _) (.modify fun _ => rfl)

/-- The counters of a served request are not looked at. -/
theorem offDisk_processDiskRequest (req : Nat) : Keeps Kernel.offDisk (processDiskRequest req) := by
  refine .modify fun s => ?_
  obtain ⟨_, _, _, _, _, proc, h, hbare⟩ := s.processed_shape req
  rw [h]
  refine Prod.ext (funext fun p => ?_) rfl
  show { (proc p).bare with residentPages := 0 } = (s.proc p).space
  rw [hbare]
  rfl

/-- A request moves heads, queue and counters. -/
theorem offDisk_submitRequest (type : DiskOp) (block : Int) (buffer : Nat)
    (p : Option ProcId) : Keeps Kernel.offDisk (submitRequest type block buffer p) := by
  have hadd : Keeps Kernel.offDisk (addDiskRequest type block buffer p) := by
    refine .bind (.bind offDisk_kalloc fun r => ?_) fun r => ?_
    · cases r with
      | none => exact .pure _
      | some req =>
        refine .bind (keeps_enqueueRequest (fun _ _ _ _ => rfl) ..) fun b => .ite (.pure _) ?_
        exact .bind (offDisk_kfree _) fun _ => .pure _
    · cases r <;> exact .pure _
  have hserve : Keeps Kernel.offDisk serveNext := by
    refine .bind (keeps_scheduleNextRequest fun _ _ _ _ => rfl) fun r => ?_
    cases r with
    | none => exact .pure _
    | some req => exact .bind (offDisk_processDiskRequest req) fun _ => offDisk_kfree _
  exact .bind hadd fun r => .ite (.pure _) (.bind hserve fun _ => .pure _)

theorem spaces_submitRequest (type : DiskOp) (block : Int) (buffer : Nat)
    (p : Option ProcId) : KeepsSpaces (submitRequest type block buffer p) :=
  (offDisk_submitRequest type block buffer p).comp Prod.fst

-- ======== swapping

/-- A page goes out: entries and counters change, no size. -/
theorem spaces_swapPageOut (pa : Nat) : KeepsSpaces (swapPageOut pa) := by
  refine .bind .get fun s => ?_
  cases s.getFrameEntry pa with
  | none => exact .pure _
  | some idx =>
    refine .ite (.pure _) (.bind (.bind .get fun s => .pure _) fun slot => ?_)
    cases slot with
    | none => exact .pure _
    | some slot =>
      refine .bind (keeps_takeSwapBlock fun _ _ => rfl) fun block => ?_
      cases block with
      | none => exact .pure _
      | some block =>
        refine .bind .get fun s => .bind (spaces_submitRequest ..)
          fun r => .ite (.pure _) (.bind (.modify fun _ => rfl) fun _ => ?_)
        exact .bind (keeps_markSwappedOut (fun _ => rfl) fun _ _ _ _ => rfl) fun _ => .pure _

theorem spaces_countEviction (idx : Nat) : KeepsSpaces (countEviction idx) := by
  refine .modify fun s => ?_
  cases (s.frameTable idx).owner with
  | none => rfl
  | some p => exact spaces_updProc fun _ => rfl

/-- An eviction changes no address space of its own accord. -/
theorem spaces_kallocOrEvict : KeepsSpaces kallocOrEvict := by
  refine .bind (spaces_beside beside_kalloc) fun r => ?_
  cases r with
  | some pa => exact .pure _
  | none =>
    refine .bind (.bind .get fun s => .pure _) fun start => ?_
    refine .bind (keeps_selectVictim (fun _ _ _ => rfl) start) fun r => ?_
    cases r with
    | none => exact .pure _
    | some idx =>
      refine .bind .get fun s => .bind (spaces_swapPageOut _) fun r => .ite (.pure _) ?_
      exact .bind (spaces_countEviction idx) fun _ => .pure _

theorem spaces_updateFrameTable (p : ProcId) (va pa : Nat) :
    KeepsSpaces (updateFrameTable p va pa) := by
  refine .modify fun s => ?_
  obtain ⟨frames, h⟩ := s.registered_shape p va pa
  rw [h]
  rfl

/-- A page comes in below the size. -/
theorem spaces_swapPageIn (p : ProcId) (va : Nat) : KeepsSpaces (swapPageIn p va) := by
  refine .bind .get fun s => ?_
  cases s.swapSlotOf p va with
  | none => exact .pure _
  | some slot =>
    refine .bind spaces_kallocOrEvict fun r => ?_
    cases r with
    | none => exact .pure _
    | some pa =>
      have hfree : ∀ v : Int, KeepsSpaces (do kfree pa; return v) :=
        fun v => .bind (spaces_beside (beside_kfree pa)) fun _ => .pure _
      refine .bind (spaces_submitRequest ..) fun r => .ite (hfree _) ?_
      refine .bind (.modify fun _ => rfl) fun _ => .bind (keeps_pagetableOf p) fun root => ?_
      refine .bind (spaces_beside (beside_mappages ..)) fun r =>
        .ite (hfree _) (.bind (spaces_updateFrameTable ..) fun _ => ?_)
      refine .bind (.modify fun s => spaces_updProc ?_) fun _ => .pure _
      exact fun _ => rfl

-- ======== faults

theorem spaces_countFault (p : ProcId) : KeepsSpaces (countFault p) := by
  refine .modify fun s => spaces_updProc ?_
  exact fun _ => rfl

theorem spaces_mapFresh (me : ProcId) (va : Nat) (r : Option Nat) :
    KeepsSpaces (mapFresh me va r) := by
  cases r with
  | none => exact .pure _
  | some mem =>
    refine .bind (.modify fun _ => rfl) fun _ => .bind (keeps_pagetableOf me) fun root => ?_
    refine .bind (spaces_beside (beside_mappages ..)) fun r => .ite ?_ ?_
    · exact .bind (spaces_beside (beside_kfree mem)) fun _ => .pure _
    refine .bind (spaces_updateFrameTable ..) fun _ =>
      .bind (.modify fun s => spaces_updProc ?_) fun _ => .pure _
    exact fun _ => rfl

/-- A fault changes no size and puts no other table in place. -/
theorem spaces_vmfault (me : ProcId) (root va : Nat) : KeepsSpaces (vmfault me root va) := by
  have htouch : ∀ va, KeepsSpaces (faultOrTouch me root va) := by
    intro va
    refine .bind (keeps_ismapped ..) fun b =>
      .ite (.bind (.modify fun _ => rfl) fun _ => .pure _) ?_
    exact .bind (spaces_countFault me) fun _ =>
      .bind spaces_kallocOrEvict fun r => spaces_mapFresh me va r
  refine .bind .get fun s => .ite (.pure _) (.bind (keeps_lookup ..) fun b => ?_)
  refine .bind .get fun s => .ite (.bind (spaces_swapPageIn ..) fun r => ?_) (htouch _)
  exact .ite (.bind (spaces_countFault me) fun _ => .pure _) (htouch _)

end GemOS
