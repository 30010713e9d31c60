/-
The swapping code as several CPUs run it: each lock-protected section,
and each access outside a lock, is one atomic section of a `Conc`
program.

The threads are the processes: a process runs at most one of these
calls at a time, and `swap_page_in` and `vmfault` work on the process
that runs them (`myproc()`). The sections are the programs the
sequential functions are made of, and `*_alone` says that a call nobody
interrupts is the sequential function.

# Events

The log records what a reader of a run wants to know about the calls:
slots picked and marked, entries cleared, requests queued and served,
pages freed, victims chosen and frames registered. No section reads it.
-/
import GemOS.Lib.Conc
import GemOS.Kernel.Memsys

namespace GemOS

open Prog

-- ======== events

/-- The sections that conditions on a run speak of. -/
inductive Section
  /-- The free-slot search of `swap_page_out`. -/
  | search
  /-- The victim scan of `evict_page`, with its `start_index`. -/
  | scan (start : Fin maxFrames)
  /-- `schedule_next_request`, by a caller that has queued `own`. -/
  | dequeue (own : Nat)
  | plain

/-- What the calls of process `t` have done. -/
inductive Event
  /-- `swap_page_out` picked a free slot. -/
  | found (t : ProcId) (slot : Nat)
  /-- `swap_page_out` gave up after its search. -/
  | released (t : ProcId)
  /-- `swap_page_out` wrote the entry of its slot. -/
  | recorded (t : ProcId) (slot : Nat) (e : SwapDiskEntry)
  /-- `swap_page_in` found the entry of its page. -/
  | pinned (t : ProcId) (slot va : Nat)
  /-- `swap_page_in` gave up before clearing the entry. -/
  | unpinned (t : ProcId)
  /-- `swap_page_in` cleared the entry. -/
  | cleared (t : ProcId) (slot va : Nat)
  /-- `add_disk_request` queued a request. -/
  | enqueued (t : ProcId) (req : Nat)
  /-- `schedule_next_request`, called with `own` queued, handed out a
  request. -/
  | taken (t : ProcId) (own : Nat) (got : Option Nat)
  /-- `process_disk_request` was called on a request. -/
  | served (t : ProcId) (req : Nat)
  /-- A page was given back to the allocator. -/
  | freed (t : ProcId) (pa : Nat)
  /-- A swap function that had queued `own` returned 0. -/
  | returned (t : ProcId) (own : Nat)
  /-- It was `swap_page_out`, for the frame `f` and with this block; `e` is
  the entry it wrote. -/
  | swappedOut (t : ProcId) (f : FrameEntry) (block : Int) (e : SwapDiskEntry)
  /-- It was `swap_page_in`. -/
  | swappedIn (t : ProcId)
  /-- The scan of `evict_page` chose a frame. -/
  | selected (t : ProcId) (idx : Nat)
  /-- `evict_page` returned the frame. -/
  | evicted (t : ProcId) (idx : Nat)
  /-- `evict_page` returned null after choosing a frame. -/
  | failed (t : ProcId)
  /-- `update_frame_table` registered a frame. -/
  | registered (t : ProcId) (idx : Nat)
  deriving DecidableEq

/-- The process whose call an event belongs to. -/
def Event.thread : Event → ProcId
  | .found t _ | .released t | .recorded t _ _ | .pinned t _ _ | .unpinned t
  | .cleared t _ _ | .enqueued t _ | .taken t _ _ | .served t _ | .freed t _ | .returned t _
  | .swappedOut t _ _ _ | .swappedIn t | .selected t _ | .evicted t _ | .failed t
  | .registered t _ => t

/-- The kernel's concurrent programs. -/
abbrev C : Type → Type 1 := Conc Kernel Fault Mark Section Event

open Conc

/-- A section that conditions do not name and that logs nothing. -/
def quiet {α : Type} (x : K α) : C α := atomic .plain x fun _ => []

/-- A section that conditions do not name. -/
def logged {α : Type} (x : K α) (ev : α → List Event) : C α :=
  atomic .plain x ev

-- ======== requests

/-- `submitRequest`; the result is the request, `none` on failure. -/
def submitRequestC (t : ProcId) (type : DiskOp) (logicalBlock : Int)
    (buffer : Nat) (p : Option ProcId) : C (Option Nat) := do
  match ← quiet kalloc with
  | none => return none
  | some req =>
    if ← logged (enqueueRequest req type logicalBlock buffer p)
        fun b => if b then [.enqueued t req] else [] then
      match ← atomic (.dequeue req) scheduleNextRequest fun got => [.taken t req got] with
      | none => return some req
      | some got =>
        logged (processDiskRequest got) fun _ => [.served t got]
        logged (kfree got) fun _ => [.freed t got]
        return some req
    else
      logged (kfree req) fun _ => [.freed t req]
      return none

-- ======== swap out

/-- `recordSwap`, with the frame it read and the entry it wrote. -/
def recordEntry (slot idx : Nat) (block : Int) : K (FrameEntry × SwapDiskEntry) := do
  let s ← get
  recordSwap slot idx block
  return (s.frameTable idx, s.swapEntryFor idx block)

def swapPageOutC (t : ProcId) (pa : Nat) : C Int := do
  let s ← quiet get
  match s.getFrameEntry pa with
  | none => return -1
  | some idx =>
    if (s.frameTable idx).owner.isNone then return -1
    else
      match ← atomic .search findSwapSlot fun r => r.toList.map (.found t) with
      | none => return -1
      | some slot =>
        match ← logged takeSwapBlock fun r => if r.isNone then [.released t] else [] with
        | none => return -1
        | some block =>
          let s ← quiet get
          match ← submitRequestC t .write block pa (s.frameTable idx).owner with
          | none =>
            logged (pure ()) fun _ => [.released t]
            return -1
          | some own =>
            let (f, e) ← logged (recordEntry slot idx block) fun r => [.recorded t slot r.2]
            logged (markSwappedOut idx slot) fun _ => [.swappedOut t f block e, .returned t own]
            return 0

-- ======== eviction

def evictPageC (t : ProcId) : C (Option Nat) := do
  let start ← quiet readHand
  match ← atomic (.scan start) (selectVictim start) fun r => r.toList.map (.selected t) with
  | none => return none
  | some idx =>
    let s ← quiet get
    let pa := s.frameIndexToPa idx
    if (← swapPageOutC t pa) ≠ 0 then
      logged (pure ()) fun _ => [.failed t]
      return none
    else
      logged (countEviction idx) fun _ => [.evicted t idx]
      return some pa

def kallocOrEvictC (t : ProcId) : C (Option Nat) := do
  match ← quiet kalloc with
  | some pa => return some pa
  | none => evictPageC t

/-- `update_frame_table`, with the entry it found. -/
def registerFrame (t : ProcId) (va pa : Nat) : K (Option Nat) := do
  let s ← get
  updateFrameTable t va pa
  return s.getFrameEntry pa

-- ======== swap in

def swapPageInC (t : ProcId) (va : Nat) : C Int := do
  let s ← logged get fun s =>
    (s.swapSlotOf t va).toList.map fun slot => .pinned t slot va
  match s.swapSlotOf t va with
  | none => return -1
  | some slot =>
    let block := (s.swapDiskTable slot).logicalBlock
    match ← kallocOrEvictC t with
    | none =>
      logged (pure ()) fun _ => [.unpinned t]
      return -1
    | some newPa =>
      match ← submitRequestC t .read block newPa (some t) with
      | none =>
        logged (kfree newPa) fun _ => [.freed t newPa, .unpinned t]
        return -1
      | some own =>
        logged (clearSwap slot) fun _ => [.cleared t slot va]
        let root ← quiet (pagetableOf t)
        if (← quiet (mappages root va pgsize newPa (pteW ||| pteU ||| pteR))) ≠ 0 then
          logged (kfree newPa) fun _ => [.freed t newPa]
          return -1
        else
          let _ ← logged (registerFrame t va newPa) fun r => r.toList.map (.registered t)
          logged (countSwapIn t) fun _ => [.swappedIn t, .returned t own]
          return 0

-- ======== vmfault

def faultInC (t : ProcId) (va : Nat) : C Nat := do
  quiet (countFault t)
  match ← kallocOrEvictC t with
  | none => return 0
  | some mem =>
    quiet (modify fun s => s.memset mem 0)
    let root ← quiet (pagetableOf t)
    if (← quiet (mappages root va pgsize mem (pteW ||| pteU ||| pteR))) ≠ 0 then
      logged (kfree mem) fun _ => [.freed t mem]
      return 0
    else
      let _ ← logged (registerFrame t va mem) fun r => r.toList.map (.registered t)
      quiet (modify fun s =>
        s.updProc t fun q => { q with residentPages := q.residentPages + 1 })
      return mem

def faultOrTouchC (t : ProcId) (pagetable va : Nat) : C Nat := do
  if ← quiet (ismapped pagetable va) then
    quiet (modify fun s =>
      s.setLeaf pagetable va (s.pte pagetable va ||| pteA))
    return 0
  else faultInC t va

def vmfaultC (t : ProcId) (pagetable va : Nat) : C Nat := do
  let s ← quiet get
  if (s.proc t).sz ≤ va then return 0
  else
    let va := pgrounddown va
    let there ← quiet (walk pagetable va false)
    let s ← quiet get
    let pte := s.pte pagetable va
    if there ∧ ¬ isV pte ∧ pte ≠ 0 then
      if (← swapPageInC t va) = 0 then
        quiet (countFault t)
        return 0
      else faultOrTouchC t pagetable va
    else faultOrTouchC t pagetable va

-- ======== calls

/-- The calls a process can be in. -/
inductive Call
  | swapOut (pa : Nat)
  | swapIn (va : Nat)
  | fault (pagetable va : Nat)

def Call.prog (t : ProcId) : Call → C Unit
  | .swapOut pa => do
    let _ ← swapPageOutC t pa
    return ()
  | .swapIn va => do
    let _ ← swapPageInC t va
    return ()
  | .fault pagetable va => do
    let _ ← vmfaultC t pagetable va
    return ()

/-- The rest of the kernel: it may change anything but what the swapping
code keeps to itself. -/
structure Outside (s s' : Kernel) : Prop where
  frameTable : s'.frameTable = s.frameTable
  clockHand : s'.clockHand = s.clockHand
  swapDiskTable : s'.swapDiskTable = s.swapDiskTable
  nextSwapBlock : s'.nextSwapBlock = s.nextSwapBlock
  head : s'.diskQueueHead = s.diskQueueHead
  tail : s'.diskQueueTail = s.diskQueueTail
  requests : s'.requests = s.requests

/-- Pools of processes inside the swapping code. -/
abbrev KPool : Type 1 := Pool Kernel Fault Mark Section Event ProcId

/-- The pools that any interleaving of calls reaches from a state, each
section running in a state that satisfies `cond`. -/
abbrev Interleaved (cond : ProcId → Section → Kernel → List Event → Prop)
    (s0 : Kernel) (w : KPool) : Prop :=
  Pool.Reach (· = .idle s0) Outside Call.prog cond w

-- ======== one call at a time

/-- The calls of a run in which no two overlap. `vmfault` is made of
these and of steps that leave the swapping code alone. -/
inductive SwapCall
  | swapPageOut (t : ProcId) (pa : Nat)
  | swapPageIn (t : ProcId) (va : Nat)
  | evictPage (t : ProcId)
  | setdisksched (policy : Int)
  | setRaidMode (mode : Int)

def SwapCall.prog : SwapCall → Prog Kernel Fault Event Unit
  | .swapPageOut t pa => do
    let _ ← (swapPageOutC t pa).solo
    return ()
  | .swapPageIn t va => do
    let _ ← (swapPageInC t va).solo
    return ()
  | .evictPage t => do
    let _ ← (evictPageC t).solo
    return ()
  | .setdisksched policy => do
    let _ ← relabel (GemOS.setdisksched policy) fun _ => []
    return ()
  | .setRaidMode mode => relabel (GemOS.setRaidMode mode) fun _ => []

/-- The rest of the kernel, between two calls: the swap table, the block
counter, the RAID mode and the request queue are not its business. -/
structure Apart (s s' : Kernel) : Prop where
  swapDiskTable : s'.swapDiskTable = s.swapDiskTable
  nextSwapBlock : s'.nextSwapBlock = s.nextSwapBlock
  raidMode : s'.raidMode = s.raidMode
  head : s'.diskQueueHead = s.diskQueueHead
  tail : s'.diskQueueTail = s.diskQueueTail

/-- The runs from `init` with one call at a time, each starting in a
state that satisfies `cond`. -/
abbrev SwapRun (init : Kernel → Prop) (cond : SwapCall → Notes Event Kernel → Kernel → Prop) :
    Notes Event Kernel → Kernel → Prop :=
  Course init Apart SwapCall.prog cond

-- ======== uninterrupted

@[simp] theorem quiet_alone {α : Type} (x : K α) : (quiet x).alone = x := alone_atomic ..

@[simp] theorem logged_alone {α : Type} (x : K α) (ev : α → List Event) :
    (logged x ev).alone = x := alone_atomic ..

/-- The sequential request protocol is the concurrent one without
interruption. -/
theorem submitRequestC_alone (t : ProcId) (type : DiskOp)
    (logicalBlock : Int) (buffer : Nat) (p : Option ProcId) :
    submitRequest type logicalBlock buffer p
      = (submitRequestC t type logicalBlock buffer p).alone >>= fun r =>
          match r with
          | none => pure (-1)
          | some _ => pure 0 := by
  simp only [submitRequest, addDiskRequest, addRequest, serveNext,
    submitRequestC, alone_bind, quiet_alone, bind_assoc]
  refine bind_congr fun r => ?_
  cases r with
  | none => simp
  | some req =>
    simp only [alone_bind, logged_alone, bind_assoc]
    refine bind_congr fun b => ?_
    cases b with
    | false => simp
    | true =>
      simp only [if_true, pure_bind, alone_bind, alone_atomic, bind_assoc]
      refine bind_congr fun got => ?_
      cases got <;> simp

theorem recordEntry_bind {α : Type} (slot idx : Nat) (block : Int)
    (f : K α) : (recordEntry slot idx block >>= fun _ => f)
      = recordSwap slot idx block >>= fun _ => f := by
  funext s
  simp only [recordEntry, recordSwap, bind_assoc, get_bind_run, modify_bind_run, pure_bind]

theorem registerFrame_bind {α : Type} (t : ProcId) (va pa : Nat)
    (f : K α) : (registerFrame t va pa >>= fun _ => f)
      = updateFrameTable t va pa >>= fun _ => f := by
  funext s
  simp only [registerFrame, updateFrameTable, bind_assoc, get_bind_run, modify_bind_run, pure_bind]

theorem swapPageOutC_alone (t : ProcId) (pa : Nat) :
    (swapPageOutC t pa).alone = swapPageOut pa := by
  simp only [swapPageOutC, swapPageOut, alone_bind, quiet_alone]
  refine bind_congr fun s => ?_
  cases s.getFrameEntry pa with
  | none => rfl
  | some idx =>
    dsimp only
    split
    · rfl
    simp only [alone_bind, alone_atomic]
    refine bind_congr fun slot? => ?_
    cases slot? with
    | none => rfl
    | some slot =>
      simp only [alone_bind, logged_alone]
      refine bind_congr fun block? => ?_
      cases block? with
      | none => rfl
      | some block =>
        simp only [alone_bind, quiet_alone]
        refine bind_congr fun s' => ?_
        rw [submitRequestC_alone t, bind_assoc]
        refine bind_congr fun r => ?_
        cases r <;> simp [recordEntry_bind]

theorem evictPageC_alone (t : ProcId) : (evictPageC t).alone = evictPage := by
  simp only [evictPageC, evictPage, alone_bind, quiet_alone, alone_atomic]
  refine bind_congr fun start => bind_congr fun idx? => ?_
  cases idx? with
  | none => rfl
  | some idx =>
    simp only [alone_bind, quiet_alone, swapPageOutC_alone]
    refine bind_congr fun s => bind_congr fun r => ?_
    split <;> simp

theorem kallocOrEvictC_alone (t : ProcId) : (kallocOrEvictC t).alone = kallocOrEvict := by
  simp only [kallocOrEvictC, kallocOrEvict, alone_bind, quiet_alone]
  refine bind_congr fun r => ?_
  cases r with
  | none => exact evictPageC_alone t
  | some pa => rfl

theorem swapPageInC_alone (t : ProcId) (va : Nat) : (swapPageInC t va).alone = swapPageIn t va := by
  simp only [swapPageInC, swapPageIn, alone_bind, logged_alone]
  refine bind_congr fun s => ?_
  cases s.swapSlotOf t va with
  | none => rfl
  | some slot =>
    simp only [alone_bind, kallocOrEvictC_alone]
    refine bind_congr fun pa? => ?_
    cases pa? with
    | none => simp
    | some newPa =>
      simp only [alone_bind]
      rw [submitRequestC_alone t, bind_assoc]
      refine bind_congr fun r => ?_
      cases r with
      | none => simp
      | some own =>
        simp only [alone_bind, logged_alone, quiet_alone, pure_bind, ne_eq, not_true, if_false]
        refine bind_congr fun _ => bind_congr fun root => ?_
        refine bind_congr fun r => ?_
        split <;> simp [registerFrame_bind]

theorem faultInC_alone (t : ProcId) (va : Nat) : (faultInC t va).alone = faultIn t va := by
  simp only [faultInC, faultIn, alone_bind, quiet_alone, kallocOrEvictC_alone]
  refine bind_congr fun _ => bind_congr fun pa? => ?_
  cases pa? with
  | none => rfl
  | some mem =>
    simp only [alone_bind, quiet_alone]
    refine bind_congr fun _ => bind_congr fun root => ?_
    refine bind_congr fun r => ?_
    split <;> simp [registerFrame_bind]

/-- A fault that nobody interrupts is the sequential `vmfault`. -/
theorem vmfaultC_alone (t : ProcId) (pagetable va : Nat) :
    (vmfaultC t pagetable va).alone = vmfault t pagetable va := by
  have htouch : ∀ va, (faultOrTouchC t pagetable va).alone = faultOrTouch t pagetable va := by
    intro va
    simp only [faultOrTouchC, faultOrTouch, alone_bind, quiet_alone]
    refine bind_congr fun b => ?_
    split <;> simp [faultInC_alone]
  simp only [vmfaultC, vmfault, alone_bind, quiet_alone]
  refine bind_congr fun s => ?_
  split
  · rfl
  simp only [alone_bind, quiet_alone]
  refine bind_congr fun there => bind_congr fun s' => ?_
  split
  · simp only [alone_bind, swapPageInC_alone]
    refine bind_congr fun r => ?_
    split <;> simp [htouch]
  · exact htouch _

end GemOS
