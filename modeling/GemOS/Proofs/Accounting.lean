/-
The disk statistics over whole runs.

`Accounted rs s` is any history of `process_disk_request` calls since
`disk_sched_init`: the requests served so far are `rs`, and between two
calls the rest of the kernel may change everything but the heads and the
counters, which only `process_disk_request` writes (the policy, the queue
and the memory of the requests included).

# The law

Per disk, the requests visit the blocks `blocksOn d rs` in order. The head
is on the last of them and has travelled `travel d rs`; the counters are
the number of requests, and the latency total is five a request plus the
travel of the four heads. All of it is one step lemma on `rs ++ [r]`.
-/
import Mathlib.Data.List.Induction
import GemOS.Kernel.Boot

namespace GemOS

open Function

-- ======== travel

/-- The way of a head that starts on block `h` and visits `bs`. -/
def headWay : Int → List Int → Nat
  | _, [] => 0
  | h, b :: bs => (h - b).natAbs + headWay b bs

/-- The head goes on from the last block. -/
theorem headWay_snoc (h b : Int) (bs : List Int) :
    headWay h (bs ++ [b]) = headWay h bs + (bs.getLastD h - b).natAbs := by
  induction bs generalizing h with
  | nil => simp [headWay]
  | cons c bs ih =>
    simp only [List.cons_append, headWay, ih, List.getLastD_cons]
    omega

/-- The blocks of one disk, in the order the requests visit them. -/
def blocksOn (d : Int) (rs : List DiskRequest) : List Int :=
  (rs.filter fun r => r.diskId = d).map DiskRequest.blockOnDisk

/-- The way of the head of disk `d`, from block 0. -/
def travel (d : Int) (rs : List DiskRequest) : Nat := headWay 0 (blocksOn d rs)

/-- The way of all four heads. -/
def totalTravel (rs : List DiskRequest) : Nat :=
  travel 0 rs + travel 1 rs + travel 2 rs + travel 3 rs

theorem blocksOn_snoc (d : Int) (rs : List DiskRequest) (r : DiskRequest) : blocksOn d (rs ++ [r])
      = blocksOn d rs ++ if r.diskId = d then [r.blockOnDisk] else [] := by
  unfold blocksOn
  rw [List.filter_append, List.map_append]
  by_cases h : r.diskId = d
  · simp [h]
  · simp [h]

-- ======== histories

/-- The request lies on one of the disks. -/
structure Located (r : DiskRequest) : Prop where
  disk : 0 ≤ r.diskId ∧ r.diskId < numDisks
  block : 0 ≤ r.blockOnDisk ∧ r.blockOnDisk < diskBlocksPerDisk

/-- Heads and counters are the same. -/
structure SameAccounts (s s' : Kernel) : Prop where
  heads : s'.currentDiskHead = s.currentDiskHead
  reads : s'.diskReads = s.diskReads
  writes : s'.diskWrites = s.diskWrites
  latency : s'.totalDiskLatency = s.totalDiskLatency
  operations : s'.diskOperations = s.diskOperations

/-- Histories of `process_disk_request` (module comment). -/
inductive Accounted : List DiskRequest → Kernel → Prop
  | init {s : Kernel} : s.diskReads = 0 → s.diskWrites = 0 →
      s.totalDiskLatency = 0 → s.diskOperations = 0 →
      Accounted [] s.diskSchedInit
  | world {rs : List DiskRequest} {s s' : Kernel} :
      Accounted rs s → SameAccounts s s' → Accounted rs s'
  | serve {rs : List DiskRequest} {s : Kernel} (req : Nat) :
      Accounted rs s → Located (s.requests req) →
      Accounted (rs ++ [s.requests req]) (s.processed req)

-- ======== one request

section serve

variable (s : Kernel) (req : Nat)

theorem processed_heads (d : Int) : (s.processed req).currentDiskHead d
      = if (s.requests req).diskId = d then (s.requests req).blockOnDisk
        else s.currentDiskHead d := by
  have h : (s.processed req).currentDiskHead
      = update s.currentDiskHead (s.requests req).diskId (s.requests req).blockOnDisk := by
    unfold Kernel.processed Kernel.updateDiskStats
    dsimp only
    split <;> rfl
  rw [h, update_apply]
  simp only [eq_comm]

/-- The counters modulo `2^64`. -/
theorem processed_counters : (s.processed req).diskReads
        = (if (s.requests req).type = .read then (s.diskReads + 1) % 2 ^ 64 else s.diskReads)
      ∧ (s.processed req).diskWrites
        = (if (s.requests req).type = .read then s.diskWrites else (s.diskWrites + 1) % 2 ^ 64)
      ∧ (s.processed req).diskOperations = (s.diskOperations + 1) % 2 ^ 64
      ∧ (s.processed req).totalDiskLatency = (s.totalDiskLatency + s.latencyOf req) % 2 ^ 64 := by
  unfold Kernel.processed Kernel.updateDiskStats
  dsimp only
  split <;> exact ⟨rfl, rfl, rfl, rfl⟩

end serve

-- ======== whole runs

/-- What a history leaves in the globals. -/
structure Accounts (rs : List DiskRequest) (s : Kernel) : Prop where
  located : ∀ r ∈ rs, Located r
  heads : ∀ d, 0 ≤ d → d < numDisks → s.currentDiskHead d = (blocksOn d rs).getLastD 0
  reads : s.diskReads = rs.countP (·.type = .read) % 2 ^ 64
  writes : s.diskWrites = rs.countP (¬ ·.type = .read) % 2 ^ 64
  operations : s.diskOperations = rs.length % 2 ^ 64
  latency : s.totalDiskLatency = (diskRotationalDelay * rs.length + totalTravel rs) % 2 ^ 64

variable {rs : List DiskRequest} {s : Kernel}

/-- The head of the request's disk makes the way to its block; the other
three stay. -/
theorem totalTravel_snoc {r : DiskRequest} (h : Located r) :
    totalTravel (rs ++ [r]) = totalTravel rs
      + ((blocksOn r.diskId rs).getLastD 0 - r.blockOnDisk).natAbs := by
  have hd : ∀ d, travel d (rs ++ [r]) = travel d rs + if r.diskId = d then
          ((blocksOn d rs).getLastD 0 - r.blockOnDisk).natAbs else 0 := by
    grind [travel, blocksOn_snoc, headWay_snoc]
  obtain ⟨h0, h4⟩ := h.disk
  have hcases : r.diskId = 0 ∨ r.diskId = 1 ∨ r.diskId = 2 ∨ r.diskId = 3 := by
    simp only [numDisks] at h4
    omega
  unfold totalTravel
  rw [hd 0, hd 1, hd 2, hd 3]
  rcases hcases with h | h | h | h <;> simp [h] <;> omega

theorem Accounts.serve {req : Nat} (h : Accounts rs s) (hr : Located (s.requests req)) :
    Accounts (rs ++ [s.requests req]) (s.processed req) := by
  obtain ⟨hreads, hwrites, hops, hlat⟩ := processed_counters s req
  refine ⟨?_, ?_, ?_, ?_, ?_, ?_⟩
  · grind [h.located, List.mem_singleton]
  · grind [processed_heads, blocksOn_snoc, List.getLastD_concat, h.heads]
  · rw [hreads, h.reads, List.countP_append, List.countP_singleton]
    by_cases hread : (s.requests req).type = .read <;> simp [hread]
  · rw [hwrites, h.writes, List.countP_append, List.countP_singleton]
    by_cases hread : (s.requests req).type = .read <;> simp [hread]
  · rw [hops, h.operations, List.length_append, List.length_singleton, Nat.mod_add_mod]
  · grind [h.heads, hr.disk, h.latency, totalTravel_snoc, List.length_append,
      List.length_singleton, Nat.mod_add_mod, Kernel.latencyOf, Kernel.calculateDiskLatency]

theorem Accounted.accounts (h : Accounted rs s) : Accounts rs s := by
  induction h with
  | @init s hr hw hl ho => exact ⟨nofun, fun d h0 h4 => if_pos ⟨h0, h4⟩, hr, hw, ho, hl⟩
  | world _ hs ih =>
    exact ⟨ih.located, hs.heads ▸ ih.heads, hs.reads.trans ih.reads, hs.writes.trans ih.writes,
      hs.operations.trans ih.operations, hs.latency.trans ih.latency⟩
  | serve req _ hr ih => exact ih.serve hr

-- ======== bounds

/-- A head is at 0 or where a request put it. -/
theorem blocksOn_range (h : ∀ r ∈ rs, Located r) (d : Int) : 0 ≤ (blocksOn d rs).getLastD 0
      ∧ (blocksOn d rs).getLastD 0 < diskBlocksPerDisk := by
  have hmem : ∀ b ∈ blocksOn d rs, 0 ≤ b ∧ b < diskBlocksPerDisk := by
    intro b hb
    obtain ⟨r, hr, rfl⟩ := List.mem_map.mp hb
    exact (h r (List.mem_of_mem_filter hr)).block
  rcases List.eq_nil_or_concat (blocksOn d rs) with heq | ⟨bs, b, heq⟩
  · rw [heq]
    decide
  · rw [heq, List.concat_eq_append, List.getLastD_concat]
    exact hmem b (by rw [heq]; simp)

/-- No request moves a head by more than 4095 blocks. -/
theorem totalTravel_le (h : ∀ r ∈ rs, Located r) : totalTravel rs ≤ 4095 * rs.length := by
  induction rs using List.reverseRecOn with
  | nil => exact le_refl _
  | append_singleton rs r ih =>
    have hrs : ∀ r ∈ rs, Located r := fun r hr => h r (List.mem_append_left _ hr)
    have hr : Located r := h r (by simp)
    have hlast := blocksOn_range hrs r.diskId
    have hblock := hr.block
    have hprev := ih hrs
    rw [totalTravel_snoc hr, List.length_append, List.length_singleton]
    simp only [diskBlocksPerDisk] at hlast hblock
    omega

/-- The heads, the counters and the latency total after any history of
fewer than `2^50` requests, and the average once there was one. -/
theorem disk_accounting {rs : List DiskRequest} {s : Kernel}
    (h : Accounted rs s) (hlen : rs.length < 2 ^ 50) :
    (∀ d, 0 ≤ d → d < numDisks → s.currentDiskHead d = (blocksOn d rs).getLastD 0)
      ∧ s.diskReads + s.diskWrites = s.diskOperations
      ∧ s.diskOperations = rs.length
      ∧ s.totalDiskLatency = 5 * rs.length + (travel 0 rs + travel 1 rs + travel 2 rs + travel 3 rs)
      ∧ (0 < rs.length → 5 ≤ s.getAvgDiskLatency ∧ s.getAvgDiskLatency ≤ 4100) := by
  have ha := h.accounts
  have hle := totalTravel_le ha.located
  have hops : s.diskOperations = rs.length := by
    rw [ha.operations, Nat.mod_eq_of_lt (by omega)]
  have hlat : s.totalDiskLatency = 5 * rs.length + totalTravel rs := by
    grind [ha.latency, Nat.mod_eq_of_lt]
  have hcount := rs.length_eq_countP_add_countP (·.type = .read)
  simp only [decide_eq_true_eq] at hcount
  refine ⟨ha.heads, ?_, hops, hlat, fun hpos => ?_⟩
  · rw [ha.reads, ha.writes, hops, Nat.mod_eq_of_lt (by omega), Nat.mod_eq_of_lt (by omega)]
    exact hcount.symm
  unfold Kernel.getAvgDiskLatency
  rw [if_pos (by omega), hops, hlat]
  constructor
  · rw [Nat.le_div_iff_mul_le hpos]
    omega
  · refine Nat.div_le_of_le_mul ?_
    rw [Nat.mul_comm]
    omega

/-- Two requests at addresses 0 and 1: a write to block 7 of disk 1 and a
read of its block 3. -/
def twoRequests : Kernel :=
  { (Kernel.initial kernbase kernbase []).diskSchedInit with
    requests := fun req =>
      { DiskRequest.zero with
        type := if req = 0 then .write else .read
        diskId := 1
        blockOnDisk := if req = 0 then 7 else 3 } }

theorem disk_accounting_two : ∃ rs, Accounted rs ((twoRequests.processed 0).processed 1)
      ∧ rs.length = 2
      ∧ ((twoRequests.processed 0).processed 1).totalDiskLatency = 21
      ∧ ((twoRequests.processed 0).processed 1).getAvgDiskLatency ≤ 4100 := by
  have hinit : Accounted [] twoRequests :=
    .world (.init (s := Kernel.initial kernbase kernbase []) rfl rfl rfl rfl)
      ⟨rfl, rfl, rfl, rfl, rfl⟩
  have hone := hinit.serve 0 ⟨by decide, by decide⟩
  have htwo := hone.serve 1 ⟨by decide, by decide⟩
  obtain ⟨-, -, -, hlat, havg⟩ := disk_accounting htwo (by decide)
  exact ⟨_, htwo, rfl, hlat, (havg (by decide)).2⟩

end GemOS
