/-
The disk layer (`disk_sched.c`): RAID mapping, the request queue with
its two dequeue policies, and the accounting that stands in for I/O.

# What a request does

`process_disk_request` moves a head and counts. It never touches
`req->buffer`, and neither does any other function here: no byte of a
page reaches a disk or comes back from one.

# The queue

Requests live in `kalloc` pages and are linked through `next`, with
`disk_queue_head` and `disk_queue_tail` as globals. `schedule_sstf`
walks the chain once; the walk takes fuel, one unit a node, and hangs
when a chain is longer than RAM has pages for (which only a cycle is).
-/
import GemOS.Kernel.Kalloc

namespace GemOS

open Function Prog

-- ======== RAID

/-- A C `int` product or conversion, wrapped to 32 bits. -/
def cInt (z : Int) : Int := Int.bmod z (2 ^ 32)

def raid0Map (logicalBlock : Int) : Option (Int × Int) :=
  let disk := logicalBlock.tmod numDisks
  let block := logicalBlock.tdiv numDisks
  if block ≥ diskBlocksPerDisk then none else some (disk, block)

def raid1Map (logicalBlock : Int) : Option (Int × Int) :=
  let stripe := logicalBlock.tdiv (diskBlocksPerDisk.tdiv 2)
  let blockOffset := logicalBlock.tmod (diskBlocksPerDisk.tdiv 2)
  let disk : Int := if stripe.tmod 2 = 0 then 0 else 2
  if blockOffset ≥ diskBlocksPerDisk then none else some (disk, blockOffset)

def raid5Map (logicalBlock : Int) : Option (Int × Int) :=
  let stripe := logicalBlock.tdiv (numDisks - 1)
  let blockInStripe := logicalBlock.tmod (numDisks - 1)
  let parityDisk := stripe.tmod numDisks
  let dataDisk :=
    if blockInStripe ≥ parityDisk then blockInStripe + 1 else blockInStripe
  let block := cInt (stripe * (diskBlocksPerDisk.tdiv numDisks))
  if block ≥ diskBlocksPerDisk then none else some (dataDisk, block)

def raidMapLogicalToPhysical (mode : RaidMode) (logicalBlock : Int) : Option (Int × Int) :=
  match mode with
  | .raid0 => raid0Map logicalBlock
  | .raid1 => raid1Map logicalBlock
  | .raid5 => raid5Map logicalBlock

/-- `raid_reverse_map`: the logical block it stores, one formula a
mode. Nothing is checked. -/
def raidReverseMap (mode : RaidMode) (disk block : Int) : Int :=
  match mode with
  | .raid0 => cInt (cInt (block * numDisks) + disk)
  | .raid1 =>
    cInt (block + cInt (disk.tdiv 2 * (diskBlocksPerDisk.tdiv 2)))
  | .raid5 =>
    let blocksPerStripe := diskBlocksPerDisk.tdiv numDisks
    let stripe := block.tdiv blocksPerStripe
    cInt (cInt (stripe * (numDisks - 1)) + disk)

-- ======== policies

/-- `disk_sched_init`: heads to block 0, FCFS, RAID 0. The statistics are
not touched; they start as zeroed globals. -/
def Kernel.diskSchedInit (s : Kernel) : Kernel :=
  { s with
    currentDiskHead := fun d =>
      if 0 ≤ d ∧ d < numDisks then 0 else s.currentDiskHead d
    diskSchedPolicy := .fcfs
    raidMode := .raid0 }

/-- `setdisksched`: unknown policies are refused. -/
def setdisksched (policy : Int) : K Int := do
  if policy = 0 then
    modify fun s => { s with diskSchedPolicy := .fcfs }
    return 0
  else if policy = 1 then
    modify fun s => { s with diskSchedPolicy := .sstf }
    return 0
  else return -1

/-- `set_raid_mode`: unknown modes are ignored. -/
def setRaidMode (mode : Int) : K Unit :=
  modify fun s =>
    if mode = 0 then { s with raidMode := .raid0 }
    else if mode = 1 then { s with raidMode := .raid1 }
    else if mode = 2 then { s with raidMode := .raid5 }
    else s

/-- `calculate_disk_latency`: seek distance plus the rotational
delay. -/
def Kernel.calculateDiskLatency (s : Kernel) (disk block : Int) : Nat :=
  (s.currentDiskHead disk - block).natAbs + diskRotationalDelay

/-- The latency of the request at an address. -/
def Kernel.latencyOf (s : Kernel) (req : Nat) : Nat :=
  s.calculateDiskLatency (s.requests req).diskId (s.requests req).blockOnDisk

-- ======== enqueue

/-- The locked half of `add_disk_request`: the filled-in request goes
behind the tail. -/
def Kernel.enqueue (s : Kernel) (req : Nat) (r : DiskRequest) : Kernel :=
  let requests := update s.requests req r
  match s.diskQueueTail with
  | none =>
    { s with
      requests := requests
      diskQueueHead := some req
      diskQueueTail := some req }
  | some tail =>
    { s with
      requests := update requests tail { requests tail with next := some req }
      diskQueueTail := some req }

/-- The request `add_disk_request` fills in. -/
def Kernel.newRequest (s : Kernel) (type : DiskOp) (logicalBlock : Int)
    (loc : Int × Int) (buffer : Nat) (p : Option ProcId) : DiskRequest :=
  { type := type
    logicalBlock := logicalBlock
    diskId := loc.1
    blockOnDisk := loc.2
    buffer := buffer
    proc := p
    priority := match p with
      | some q => (s.proc q).level.val
      | none => mlfqLevels - 1
    timestamp := s.ticks
    raidMode := s.raidMode
    next := none }

/-- `add_disk_request` once it has its page: the block is mapped, the
request filled in and put in the queue. -/
def enqueueRequest (req : Nat) (type : DiskOp) (logicalBlock : Int)
    (buffer : Nat) (p : Option ProcId) : K Bool := do
  let s ← get
  match raidMapLogicalToPhysical s.raidMode logicalBlock with
  | none => return false
  | some loc =>
    modify fun s =>
      s.enqueue req (s.newRequest type logicalBlock loc buffer p)
    return true

/-- `add_disk_request`; on success also the address of the request,
which the caller does not see. -/
def addRequest (type : DiskOp) (logicalBlock : Int) (buffer : Nat)
    (p : Option ProcId) : K (Option Nat) := do
  match ← kalloc with
  | none => return none
  | some req =>
    if ← enqueueRequest req type logicalBlock buffer p then return some req
    else
      kfree req
      return none

def addDiskRequest (type : DiskOp) (logicalBlock : Int) (buffer : Nat)
    (p : Option ProcId) : K Int := do
  match ← addRequest type logicalBlock buffer p with
  | none => return -1
  | some _ => return 0

-- ======== dequeue

def scheduleFcfs : K (Option Nat) := do
  let s ← get
  match s.diskQueueHead with
  | none => return none
  | some req =>
    modify fun s =>
      { s with
        diskQueueHead := (s.requests req).next
        diskQueueTail :=
          if (s.requests req).next.isNone then none else s.diskQueueTail }
    return some req

/-- The walk of `schedule_sstf`: the best request so far, its
predecessor and its latency. -/
structure Sstf where
  best : Nat
  prevBest : Option Nat
  minLatency : Nat

/-- One round of the walk, at node `curr` behind `prevCurr`: strictly
closer wins, and on equal distance the strictly higher priority. -/
def Kernel.sstfVisit (s : Kernel) (prevCurr : Option Nat) (curr : Nat) (b : Sstf) : Sstf :=
  let latency := s.latencyOf curr
  if latency < b.minLatency ∨ (latency = b.minLatency ∧
      (s.requests curr).priority < (s.requests b.best).priority) then
    { best := curr, prevBest := prevCurr, minLatency := latency }
  else b

/-- `while(curr)`: fuel counts nodes. -/
def Kernel.sstfWalk (s : Kernel) : Nat → Option Nat → Option Nat → Sstf → Option Sstf
  | _, _, none, b => some b
  | 0, _, some _, _ => none
  | fuel + 1, prevCurr, some curr, b =>
    s.sstfWalk fuel (some curr) (s.requests curr).next (s.sstfVisit prevCurr curr b)

/-- Unlinking the chosen request. `disk_queue_tail` is only reset when
the queue has become empty. -/
def Kernel.sstfUnlink (s : Kernel) (b : Sstf) : Kernel :=
  let after := (s.requests b.best).next
  let s1 := match b.prevBest with
    | none => { s with diskQueueHead := after }
    | some prev =>
      { s with
        requests := update s.requests prev { s.requests prev with next := after } }
  { s1 with
    diskQueueTail := if s1.diskQueueHead.isNone then none else s1.diskQueueTail
    requests := update s1.requests b.best { s1.requests b.best with next := none } }

def scheduleSstf : K (Option Nat) := do
  let s ← get
  match s.diskQueueHead with
  | none => return none
  | some head =>
    let b0 : Sstf :=
      { best := head, prevBest := none, minLatency := s.latencyOf head }
    match s.sstfWalk ramPages none (some head) b0 with
    | none => fault .hang
    | some b =>
      modify fun s => s.sstfUnlink b
      return some b.best

def scheduleNextRequest : K (Option Nat) := do
  let s ← get
  match s.diskSchedPolicy with
  | .fcfs => scheduleFcfs
  | .sstf => scheduleSstf

-- ======== accounting

/-- `update_disk_stats`. -/
def Kernel.updateDiskStats (s : Kernel) (r : DiskRequest) (latency : Nat) :
    Kernel :=
  let s1 : Kernel :=
    { s with
      diskReads := if r.type = .read then (s.diskReads + 1) % 2 ^ 64 else s.diskReads
      diskWrites := if r.type = .read then s.diskWrites else (s.diskWrites + 1) % 2 ^ 64
      totalDiskLatency := (s.totalDiskLatency + latency) % 2 ^ 64
      diskOperations := (s.diskOperations + 1) % 2 ^ 64 }
  match r.proc with
  | none => s1
  | some p =>
    let q := s1.proc p
    { s1 with
      proc := update s1.proc p (if r.type = .read then
          { q with pagesSwappedIn := q.pagesSwappedIn + 1 }
        else { q with pagesSwappedOut := q.pagesSwappedOut + 1 }) }

/-- `process_disk_request`: the head of the disk moves to the block and
the statistics are updated. -/
def Kernel.processed (s : Kernel) (req : Nat) : Kernel :=
  let r := s.requests req
  let s1 : Kernel :=
    { s with
      currentDiskHead :=
        update s.currentDiskHead r.diskId r.blockOnDisk }
  s1.updateDiskStats r (s.latencyOf req)

def processDiskRequest (req : Nat) : K Unit := modify fun s => s.processed req

/-- `get_avg_disk_latency`. -/
def Kernel.getAvgDiskLatency (s : Kernel) : Nat :=
  if s.diskOperations > 0 then s.totalDiskLatency / s.diskOperations else 0

-- ======== evaluation

/-- `add_disk_request` fails when no page is free or the block has no
place on the disks; otherwise it enqueues. -/
theorem addRequest_run (type : DiskOp) (logicalBlock : Int) (buffer : Nat)
    (p : Option ProcId) (s : Kernel) :
    addRequest type logicalBlock buffer p s = match s.interfered.freelist with
        | [] => .ok (none, s.interfered, [])
        | req :: rest =>
          let s1 := s.interfered.popped req rest
          match raidMapLogicalToPhysical s.raidMode logicalBlock with
          | none => (kfree req >>= fun _ => pure none) s1
          | some loc =>
            .ok (some req, s1.enqueue req (s1.newRequest type logicalBlock loc buffer p), []) := by
  unfold addRequest
  cases hfree : s.interfered.freelist with
  | nil =>
    have hk := kalloc_run s
    rw [hfree] at hk
    rw [bind_run_quiet hk]
    rfl
  | cons req rest =>
    have hk := kalloc_run s
    rw [hfree] at hk
    rw [bind_run_quiet hk]
    dsimp only
    have hmode : (s.interfered.popped req rest).raidMode = s.raidMode := by
      obtain ⟨fl, hd, m, e, hs, -⟩ := s.interfered_shape
      rw [hs]
      rfl
    cases hmap : raidMapLogicalToPhysical s.raidMode logicalBlock with
    | none =>
      have he : enqueueRequest req type logicalBlock buffer p (s.interfered.popped req rest)
          = .ok (false, s.interfered.popped req rest, []) := by
        simp only [enqueueRequest, get_bind_run, hmode, hmap]
        rfl
      rw [bind_run_quiet he]
      rfl
    | some loc =>
      have he : enqueueRequest req type logicalBlock buffer p (s.interfered.popped req rest)
          = .ok (true, (s.interfered.popped req rest).enqueue req
              ((s.interfered.popped req rest).newRequest type logicalBlock loc buffer p), []) := by
        simp only [enqueueRequest, get_bind_run, hmode, hmap]
        rfl
      rw [bind_run_quiet he]
      rfl

/-- What a call of `add_disk_request` can have done. -/
theorem addRequest_ok {type : DiskOp} {logicalBlock : Int} {buffer : Nat}
    {p : Option ProcId} {s s' : Kernel} {r : Option Nat} {t : List (Mark × Kernel)}
    (h : addRequest type logicalBlock buffer p s = .ok (r, s', t)) :
    t = [] ∧ ((s.interfered.freelist = [] ∧ r = none ∧ s' = s.interfered)
      ∨ ∃ req rest, s.interfered.freelist = req :: rest ∧
        ((r = none ∧ raidMapLogicalToPhysical s.raidMode logicalBlock = none
          ∧ s' = (s.interfered.popped req rest).push req)
        ∨ ∃ loc, r = some req ∧ raidMapLogicalToPhysical s.raidMode logicalBlock = some loc
          ∧ s' = (s.interfered.popped req rest).enqueue req
            ((s.interfered.popped req rest).newRequest type logicalBlock loc buffer p))) := by
  rw [addRequest_run] at h
  cases hfree : s.interfered.freelist with
  | nil =>
    rw [hfree] at h
    cases h
    exact ⟨rfl, .inl ⟨rfl, rfl, rfl⟩⟩
  | cons req rest =>
    rw [hfree] at h
    dsimp only at h
    split at h
    · next hplace =>
      obtain ⟨u, s1, t1, t2, hk, hp, rfl⟩ := bind_ok h
      obtain ⟨rfl, rfl⟩ := kfree_ok hk
      cases hp
      exact ⟨rfl, .inr ⟨req, rest, rfl, .inl ⟨rfl, hplace, rfl⟩⟩⟩
    · next loc hplace =>
      cases h
      exact ⟨rfl, .inr ⟨req, rest, rfl, .inr ⟨loc, rfl, hplace, rfl⟩⟩⟩

/-- A process without its statistics of faults and swaps. -/
def Proc.bare (q : Proc) : Proc :=
  { q with
    pageFaults := 0
    pagesEvicted := 0
    pagesSwappedIn := 0
    pagesSwappedOut := 0 }

/-- Serving a request only moves a head and counts. -/
theorem Kernel.processed_shape (s : Kernel) (req : Nat) : ∃ heads reads writes total ops proc,
      s.processed req = { s with
            currentDiskHead := heads
            diskReads := reads
            diskWrites := writes
            totalDiskLatency := total
            diskOperations := ops
            proc := proc }
      ∧ ∀ q, (proc q).bare = (s.proc q).bare := by
  unfold Kernel.processed Kernel.updateDiskStats
  dsimp only
  split
  · exact ⟨_, _, _, _, _, _, rfl, fun _ => rfl⟩
  · rename_i p _
    refine ⟨_, _, _, _, _, _, rfl, fun q => ?_⟩
    by_cases hq : q = p
    · rw [hq, update_self]
      split <;> rfl
    · rw [update_of_ne hq]

end GemOS
