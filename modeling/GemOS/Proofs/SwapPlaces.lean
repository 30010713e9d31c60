/-
Where on the disks the swapped-out pages are.

`swap_page_out` hands out logical block numbers in ascending order and
never one twice; `raid_map_logical_to_physical` sends a number to a disk
and a block on it, by the RAID mode of the moment. Pages are apart as
long as that map is injective on the numbers in use, and are found again
as long as it does not change under them.

# Two ways to go wrong

RAID 1 uses half of a disk for each of its two stripes and folds the
numbers over these 4096 places. `set_raid_mode` changes the map for
pages that are already out.
-/
import GemOS.Proofs.Raid
import GemOS.Proofs.SwapLedger
import GemOS.Proofs.SwapTrip

namespace GemOS

open Function Prog

variable {b r : Int} {loc : Int × Int} {mode : RaidMode} {l l' : Ledger}
  {e : SwapDiskEntry} {slot pa va own : Nat} {n h : Notes Event Kernel}
  {s s' s1 : Kernel} {t p : ProcId}
  {cond : SwapCall → Notes Event Kernel → Kernel → Prop} {init : Kernel → Prop}
  {m : Notes Mark Kernel}

-- ======== pages are apart

/-- Nothing swapped out, no block handed out, no request pending. -/
structure SwapStart (s : Kernel) : Prop where
  free : ∀ i, (s.swapDiskTable i).inUse = false
  next : s.nextSwapBlock = swapStartBlock
  idle : Idle s

/-- Any two swapped-out pages are on different places. -/
def PlacesDistinct (s : Kernel) : Prop :=
  ∀ i j, i ≠ j → (s.swapDiskTable i).inUse = true → (s.swapDiskTable j).inUse = true →
    ∃ a b, raidMapLogicalToPhysical s.raidMode (s.swapDiskTable i).logicalBlock = some a
      ∧ raidMapLogicalToPhysical s.raidMode (s.swapDiskTable j).logicalBlock = some b
      ∧ a ≠ b ∧ OnDisk a ∧ OnDisk b

/-- The RAID mode is not changed during the run. -/
def ModeFixed : SwapCall → Notes Event Kernel → Kernel → Prop
  | .setRaidMode _, _, _ => False
  | _, _, _ => True

/-- The block numbers in use: below the counter, each once, each with a
place. -/
structure BlocksApart (l : Ledger) : Prop where
  next : 0 ≤ l.next
  block : ∀ i, (l.table i).inUse = true →
    0 ≤ (l.table i).logicalBlock ∧ (l.table i).logicalBlock < l.next
      ∧ (l.table i).logicalBlock < numDisks * diskBlocksPerDisk
  place : ∀ i, (l.table i).inUse = true →
    ∃ loc, raidMapLogicalToPhysical l.mode (l.table i).logicalBlock = some loc
  once : ∀ i j, (l.table i).inUse = true → (l.table j).inUse = true →
    (l.table i).logicalBlock = (l.table j).logicalBlock → i = j

/-- A number skipped. -/
theorem BlocksApart.skip (h : BlocksApart l) : BlocksApart { l with next := l.next + 1 } := by
  refine ⟨by have := h.next; show 0 ≤ l.next + 1; omega, fun i hi => ?_, h.place, h.once⟩
  obtain ⟨h1, h2, h3⟩ := h.block i hi
  exact ⟨h1, Int.lt_add_one_of_le (Int.le_of_lt h2), h3⟩

/-- The next number goes to a new entry. -/
theorem BlocksApart.record (h : BlocksApart l) (he : e.logicalBlock = l.next)
    (hcap : l.next < numDisks * diskBlocksPerDisk)
    (hloc : raidMapLogicalToPhysical l.mode l.next = some loc) : BlocksApart { l with
      next := l.next + 1, table := update l.table slot e } := by
  have hskip := h.skip
  have hold : ∀ {i}, i ≠ slot → update l.table slot e i = l.table i := fun hi => update_of_ne hi _ _
  have hnew : update l.table slot e slot = e := update_self ..
  refine ⟨hskip.next, fun i hi => ?_, fun i hi => ?_, fun i j hi hj hij => ?_⟩
  · dsimp only at hi ⊢
    by_cases his : i = slot
    · rw [his, hnew, he]
      have := h.next
      omega
    · rw [hold his] at hi ⊢
      exact hskip.block i hi
  · grind [h.place]
  · dsimp only at hi hj hij
    -- the new number is above all others
    by_cases his : i = slot <;> by_cases hjs : j = slot
    · rw [his, hjs]
    · rw [his, hnew, hold hjs, he] at hij
      rw [hold hjs] at hj
      have := (h.block j hj).2.1
      omega
    · rw [hjs, hnew, hold his, he] at hij
      rw [hold his] at hi
      have := (h.block i hi).2.1
      omega
    · grind [h.once]

/-- An entry given up. -/
theorem BlocksApart.clear (h : BlocksApart l) (he : e.inUse = false) :
    BlocksApart { l with table := update l.table slot e } := by
  have hsame : ∀ {i}, (update l.table slot e i).inUse = true →
      update l.table slot e i = l.table i ∧ (l.table i).inUse = true := by
    grind [update_apply]
  refine ⟨h.next, fun i hi => ?_, fun i hi => ?_, fun i j hi hj hij => ?_⟩
  · obtain ⟨heq, hi'⟩ := hsame hi
    dsimp only
    rw [heq]
    exact h.block i hi'
  · grind [h.place]
  · grind [h.once]

theorem BlocksApart.of_eq (h : BlocksApart l) (htable : l'.table = l.table)
    (hnext : l'.next = l.next) (hmode : l'.mode = l.mode) : BlocksApart l' := by
  obtain ⟨h1, h2, h3, h4⟩ := h
  rw [← hnext] at h1 h2
  rw [← hmode] at h3
  rw [← htable] at h2 h3 h4
  exact ⟨h1, h2, h3, h4⟩

theorem BlocksApart.move (h : BlocksApart s.ledger)
    (hm : SwapMove True t s n s') : BlocksApart s'.ledger := by
  cases hm with
  | aside hl => exact hl ▸ h
  | leak _ hl => exact hl ▸ h.skip
  | out hslot hcap h0 hh _ he hl =>
    obtain ⟨_, _, _, rfl, hcarries⟩ := hh.notes
    have hplace := hcarries.place
    rw [mode_of_ledger h0] at hplace
    rw [hl, h0]
    exact h.record he hcap hplace
  | fetch _ _ _ _ _ hl => exact hl ▸ h.clear rfl

theorem BlocksApart.distinct (h : BlocksApart s.ledger)
    (hfew : s.raidMode = .raid1 → s.nextSwapBlock ≤ 4096) :
    PlacesDistinct s := by
  intro i j hij hi hj
  obtain ⟨hi0, hin, hicap⟩ := h.block i hi
  obtain ⟨hj0, hjn, hjcap⟩ := h.block j hj
  obtain ⟨a, ha⟩ := h.place i hi
  obtain ⟨b, hb⟩ := h.place j hj
  refine ⟨a, b, ha, hb, ?_, raid_onDisk hi0 hicap ha, raid_onDisk hj0 hjcap hb⟩
  rintro rfl
  have hlow : ∀ {c : Int}, c < s.nextSwapBlock → ¬ Folded s.raidMode c := by
    rintro c hc ⟨hmode, hfold⟩
    have := hfew hmode
    omega
  exact hij (h.once i j hi hj (raid_injective hi0 hicap hj0 hjcap (hlow hin) (hlow hjn) ha hb))

/-- In RAID 0 and RAID 5 the pages are always apart; in RAID 1 they are
as long as at most 4096 block numbers have been handed out. -/
theorem swap_places_distinct {n : Notes Event Kernel} {s : Kernel}
    (hr : SwapRun SwapStart ModeFixed n s) (hfew : s.raidMode = .raid1 → s.nextSwapBlock ≤ 4096) :
    PlacesDistinct s := by
  refine BlocksApart.distinct (SwapRun.keeps True
    (I := fun _ s => BlocksApart s.ledger) ?_ ?_ ?_ ?_ ?_ hr).2 hfew
  · intro s hs
    have hfree : ∀ i, (s.ledger.table i).inUse ≠ true := fun i hi =>
      absurd ((hs.free i).symm.trans hi) (by decide)
    exact ⟨hs.idle, (hs.next ▸ Int.le_refl 0 : 0 ≤ s.nextSwapBlock),
      fun i hi => absurd hi (hfree i), fun i hi => absurd hi (hfree i),
      fun i _ hi => absurd hi (hfree i)⟩
  · exact fun _ _ _ hl => absurd trivial hl
  · exact fun _ _ _ _ _ hI hm => hI.move hm
  · exact fun _ _ _ _ hc => hc.elim
  · exact fun _ _ _ hI hap => ⟨hap, hI.of_eq hap.swapDiskTable hap.nextSwapBlock hap.raidMode⟩

/-- Any call but a change of the mode. -/
def modeFixed : SwapCall → Notes Event Kernel → Kernel → Bool
  | .setRaidMode _, _, _ => false
  | _, _, _ => true

theorem modeFixed_of_check (c : SwapCall) (n : Notes Event Kernel)
    (s : Kernel) (h : modeFixed c n s = true) : ModeFixed c n s := by
  cases c with
  | setRaidMode mode => cases h
  | swapPageOut t pa | swapPageIn t va | evictPage t | setdisksched policy => trivial

/-- A page swapped out twice, in RAID 0. -/
theorem swap_places_distinct_twice : ∃ n s, SwapRun SwapStart ModeFixed n s
      ∧ (s.swapDiskTable 0).inUse = true ∧ (s.swapDiskTable 1).inUse = true
      ∧ PlacesDistinct s := by
  have hfresh : SwapRun SwapStart ModeFixed [] fives :=
    .init ⟨fun _ => rfl, rfl, idle_iff.mpr ⟨rfl, rfl⟩⟩
  obtain ⟨n, s, hr, hfirst, hsecond, hmode⟩ := hfresh.played (P := fun _ s =>
    (s.swapDiskTable 0).inUse = true ∧ (s.swapDiskTable 1).inUse = true ∧ s.raidMode ≠ .raid1)
    modeFixed modeFixed_of_check [.swapPageOut 0 0x80024000, .swapPageOut 0 0x80024000]
    (by decide +kernel)
  exact ⟨n, s, hr, hfirst, hsecond, swap_places_distinct hr fun h => absurd h hmode⟩

/-- A call that runs alone, as a step of a run. -/
theorem SwapRun.swapPageOut (hr : SwapRun init cond n s) (hc : cond (.swapPageOut t pa) n s)
    (h : GemOS.swapPageOut pa s = .ok (r, s', m)) : ∃ n', SwapRun init cond n' s' := by
  rw [← swapPageOutC_alone t] at h
  obtain ⟨e, hsolo⟩ := Conc.solo_of_alone h
  exact ⟨_, hr.step (.swapPageOut t pa) hc (ok_bind hsolo rfl)⟩

theorem SwapRun.swapPageIn (hr : SwapRun init cond n s) (hc : cond (.swapPageIn t va) n s)
    (h : GemOS.swapPageIn t va s = .ok (r, s', m)) : ∃ n', SwapRun init cond n' s' := by
  rw [← swapPageInC_alone] at h
  obtain ⟨e, hsolo⟩ := Conc.solo_of_alone h
  exact ⟨_, hr.step (.swapPageIn t va) hc (ok_bind hsolo rfl)⟩

/-- Without a free page every `swap_page_out` costs a block number. -/
theorem SwapRun.leaks {idx : Nat} (hr : SwapRun init ModeFixed n s)
    (hex : Exhausted s) (hentry : s.getFrameEntry pa = some idx)
    (howner : (s.frameTable idx).owner = some p) (hslot : s.freeSlot = some slot) (k : Nat)
    (hk : s.nextSwapBlock + k ≤ numDisks * diskBlocksPerDisk) :
    ∃ n', SwapRun init ModeFixed n' { s with nextSwapBlock := s.nextSwapBlock + k } := by
  induction k with
  | zero =>
    refine ⟨n, ?_⟩
    rw [show s.nextSwapBlock + ((0 : Nat) : Int) = s.nextSwapBlock from Int.add_zero _]
    exact hr
  | succ k ih =>
    have hk' : s.nextSwapBlock + (k : Int) < numDisks * diskBlocksPerDisk := by
      rw [Int.natCast_succ] at hk
      omega
    obtain ⟨n', hr'⟩ := ih (Int.le_of_lt hk')
    have hleak := Exhausted.swapPageOut_leaks (s := { s with
      nextSwapBlock := s.nextSwapBlock + k }) ⟨hex.freelist, hex.env⟩
      hentry howner hslot hk'
    obtain ⟨n'', hr''⟩ := hr'.swapPageOut (t := 0) trivial hleak
    refine ⟨n'', ?_⟩
    rw [Int.natCast_succ, ← Int.add_assoc]
    exact hr''

/-- The one page of a process, in RAID 1. -/
def mirrored : Kernel := { fives with raidMode := .raid1 }

/-- It is out, and memory has run out. -/
def mirroredOut : Kernel :=
  { after (swapPageOut 0x80024000) mirrored with freelist := [] }

/-- 4095 failed attempts later there is a free page again. -/
def mirroredLater : Kernel :=
  { mirroredOut with nextSwapBlock := 4096, freelist := [0x80030000] }

set_option maxRecDepth 20000 in
/-- In RAID 1 two pages can end up on one place: 4096 block numbers
after the first. -/
theorem mirrored_places_meet : ∃ n s, SwapRun SwapStart ModeFixed n s ∧ s.raidMode = .raid1
      ∧ ¬ PlacesDistinct s := by
  have hstart : SwapRun SwapStart ModeFixed [] mirrored :=
    .init ⟨fun _ => rfl, rfl, idle_iff.mpr ⟨rfl, rfl⟩⟩
  obtain ⟨n1, h1⟩ := hstart.swapPageOut (t := 0) trivial (show swapPageOut 0x80024000 mirrored
      = .ok (0, after (swapPageOut 0x80024000) mirrored, _) from rfl)
  have h2 : SwapRun SwapStart ModeFixed n1 mirroredOut := h1.world ⟨rfl, rfl, rfl, rfl, rfl⟩
  have hentry : mirroredOut.getFrameEntry 0x80024000 = some 4 := rfl
  have hslot : mirroredOut.freeSlot = some 1 := rfl
  obtain ⟨n3, h3⟩ := h2.leaks ⟨rfl, rfl⟩ hentry (p := 0) rfl hslot 4095 (by decide)
  have h4 : SwapRun SwapStart ModeFixed n3 mirroredLater := h3.world ⟨rfl, rfl, rfl, rfl, rfl⟩
  obtain ⟨n5, h5⟩ := h4.swapPageOut (t := 0) trivial (show swapPageOut 0x80024000 mirroredLater
      = .ok (0, after (swapPageOut 0x80024000) mirroredLater, _) from rfl)
  refine ⟨n5, _, h5, rfl, fun hd => ?_⟩
  obtain ⟨a, b, ha, hb, hne, -⟩ := hd 0 1 (by decide) rfl rfl
  exact hne (Option.some.inj (ha.symm.trans (Eq.trans (by rfl) hb)))

-- ======== pages are found again

/-- The page of an entry, by its process and address. -/
def SwapDiskEntry.page (e : SwapDiskEntry) : Option ProcId × Nat := (e.owner, e.vaddr)

/-- The last request queued in a run, for each page the one that its last
`swap_page_out` had queued, and the pages that are out. -/
structure Journal where
  last : Option DiskRequest
  wrote : Option ProcId × Nat → Option DiskRequest
  out : Option ProcId × Nat → Bool

def Journal.empty : Journal := ⟨none, fun _ => none, fun _ => false⟩

def Journal.note (j : Journal) : Event × Kernel → Journal
  | (.enqueued _ req, s) => { j with last := some (s.requests req) }
  | (.recorded _ _ e, _) =>
    { j with wrote := update j.wrote e.page j.last, out := update j.out e.page true }
  | (.cleared t _ va, _) => { j with out := update j.out (some t, va) false }
  | _ => j

/-- `P` holds of every note of a run and the journal before it. -/
def Journal.Along (P : Journal → Event × Kernel → Prop) (j : Journal) : Notes Event Kernel → Prop
  | [] => True
  | m :: n => P j m ∧ Along P (j.note m) n

theorem Journal.along_append {P : Journal → Event × Kernel → Prop} {n' : Notes Event Kernel}
    {j : Journal} : j.Along P (n ++ n') ↔ j.Along P n ∧ (n.foldl Journal.note j).Along P n' := by
  induction n generalizing j with
  | nil => exact ⟨fun h => ⟨trivial, h⟩, fun h => h.2⟩
  | cons m n ih =>
    show P j m ∧ (j.note m).Along P (n ++ n') ↔ (P j m ∧ _) ∧ _
    rw [ih, and_assoc]
    rfl

instance {P : Journal → Event × Kernel → Prop} [∀ j m, Decidable (P j m)] (j : Journal) :
    (n : Notes Event Kernel) → Decidable (j.Along P n) :=
  fun n => n.rec (fun _ => inferInstanceAs (Decidable True))
    (fun m _ ih j => have := ih (j.note m); inferInstanceAs (Decidable (P j m ∧ _))) j

/-- A `DISK_READ` of what a `DISK_WRITE` wrote. -/
def SamePlace : Option DiskRequest → Option DiskRequest → Prop
  | some w, some r => w.type = .write ∧ r.type = .read ∧ r.diskId = w.diskId
      ∧ r.blockOnDisk = w.blockOnDisk
  | _, _ => False

instance (w r : Option DiskRequest) : Decidable (SamePlace w r) := by
  unfold SamePlace
  split <;> infer_instance

/-- When `swap_page_in` clears the entry of its page, the request it has
queued reads where the last `swap_page_out` of the page wrote. -/
def Journal.Finds (j : Journal) : Event × Kernel → Prop
  | (.cleared t _ va, _) => SamePlace (j.wrote (some t, va)) j.last
  | _ => True

instance (j : Journal) (m : Event × Kernel) : Decidable (j.Finds m) := by
  unfold Journal.Finds
  split <;> infer_instance

/-- Every `swap_page_in` of a run reads where the page was written. -/
abbrev ReadsBack : Notes Event Kernel → Prop := Journal.Along Journal.Finds .empty

/-- `swap_page_out` records a page that is not out yet. -/
def Journal.Fresh (j : Journal) : Event × Kernel → Prop
  | (.recorded _ _ e, _) => j.out e.page = false
  | _ => True

instance (j : Journal) (m : Event × Kernel) : Decidable (j.Fresh m) := by
  unfold Journal.Fresh
  split <;> infer_instance

/-- No page goes out that is out already. -/
abbrev OutOnce : Notes Event Kernel → Prop := Journal.Along Journal.Fresh .empty

/-- At every change of the RAID mode the pages that are out keep their
place. -/
def PlacesKept : SwapCall → Notes Event Kernel → Kernel → Prop
  | .setRaidMode mode, _, s => ∀ i, (s.swapDiskTable i).inUse = true →
      raidMapLogicalToPhysical (after (setRaidMode mode) s).raidMode
          (s.swapDiskTable i).logicalBlock
        = raidMapLogicalToPhysical s.raidMode (s.swapDiskTable i).logicalBlock
  | _, _, _ => True

/-- Every page that is out has one entry and lies where the current mode
looks for it. -/
structure Findable (n : Notes Event Kernel) (l : Ledger) : Prop where
  past : ReadsBack n
  pages : ∀ i, (l.table i).inUse = true → (n.foldl Journal.note .empty).out (l.table i).page = true
    ∧ ∃ w, (n.foldl Journal.note .empty).wrote (l.table i).page = some w ∧ w.type = .write
      ∧ raidMapLogicalToPhysical l.mode (l.table i).logicalBlock = some (w.diskId, w.blockOnDisk)
  once : ∀ i k, (l.table i).inUse = true → (l.table k).inUse = true →
    (l.table i).page = (l.table k).page → i = k

/-- Events that say nothing about requests or entries. -/
theorem Findable.minor {m : Notes Event Kernel} (h : Findable n l)
    (hm : ∀ x ∈ m, x.1.minor = true) : Findable (n ++ m) l := by
  induction m generalizing n with
  | nil => rwa [List.append_nil]
  | cons x m ih =>
    rw [← List.singleton_append, ← List.append_assoc]
    refine ih ?_ fun y hy => hm y (List.mem_cons_of_mem _ hy)
    obtain ⟨e, s⟩ := x
    have hx : e.minor = true := hm (e, s) (List.mem_cons_self ..)
    refine ⟨Journal.along_append.mpr ⟨h.past, ?_, trivial⟩, ?_, h.once⟩
    · cases e <;> trivial
    · rw [List.foldl_append]
      cases e <;> first | exact h.pages | cases hx

theorem Findable.of_eq (h : Findable n l) (htable : l'.table = l.table)
    (hmode : l'.mode = l.mode) : Findable n l' := by
  obtain ⟨h1, h2, h3⟩ := h
  rw [← htable, ← hmode] at h2
  rw [← htable] at h3
  exact ⟨h1, h2, h3⟩

/-- A new entry, behind its request. -/
theorem Findable.out {s0 s2 : Kernel} {block : Int} {f : FrameEntry} (hf : Findable h s0.ledger)
    (hh : Handled t own .write block s0 n s1) (he : e.logicalBlock = block)
    (hfresh : (h.foldl Journal.note .empty).out e.page = false) :
    Findable (h ++ (n ++ [(.recorded t slot e, s2), (.swappedOut t f block e, s'),
        (.returned t own, s')]))
      { s0.ledger with table := update s0.swapDiskTable slot e } := by
  obtain ⟨a, b, c, rfl, hcarries⟩ := hh.notes
  -- an entry in use for the page would have it out
  have hother : ∀ i, (s0.swapDiskTable i).inUse = true → (s0.swapDiskTable i).page ≠ e.page := by
    intro i hi heq
    have hout : _ = true := (hf.pages i hi).1
    rw [show (s0.ledger.table i).page = e.page from heq, hfresh] at hout
    cases hout
  refine ⟨Journal.along_append.mpr ⟨hf.past, trivial, trivial, trivial, trivial, trivial, trivial,
    trivial, trivial⟩, fun i hi => ?_, fun i k hi hk heq => ?_⟩
  · simp only [List.foldl_append, List.foldl_cons, List.foldl_nil, Journal.note]
    dsimp only [Kernel.ledger] at hi ⊢
    by_cases his : i = slot
    · rw [his, update_self, update_self, update_self, he]
      exact ⟨rfl, _, rfl, hcarries.type, hcarries.place⟩
    · rw [update_of_ne his] at hi ⊢
      rw [update_of_ne (hother i hi), update_of_ne (hother i hi)]
      exact hf.pages i hi
  · dsimp only at hi hk heq
    by_cases his : i = slot <;> by_cases hks : k = slot
    · rw [his, hks]
    · rw [his, update_self, update_of_ne hks] at heq
      rw [update_of_ne hks] at hk
      exact absurd heq.symm (hother k hk)
    · rw [hks, update_self, update_of_ne his] at heq
      rw [update_of_ne his] at hi
      exact absurd heq (hother i hi)
    · rw [update_of_ne his] at hi heq
      rw [update_of_ne hks] at hk heq
      exact hf.once i k hi hk heq

/-- The page of an entry is read, and the entry cleared. -/
theorem Findable.fetch (hf : Findable h s.ledger) (huse : (s.swapDiskTable slot).inUse = true)
    (hpage : (s.swapDiskTable slot).page = (some t, va))
    (hh : Handled t own .read (s.swapDiskTable slot).logicalBlock s n s1) (he : e.inUse = false) :
    Findable (h ++ (n ++ [(.cleared t slot va, s')]))
      { s.ledger with table := update s.swapDiskTable slot e } := by
  obtain ⟨a, b, c, rfl, hcarries⟩ := hh.notes
  obtain ⟨-, w, hw, hwtype, hplace⟩ := hf.pages slot huse
  change (h.foldl Journal.note .empty).wrote (s.swapDiskTable slot).page = some w at hw
  rw [hpage] at hw
  have hsame := Prod.mk.inj (Option.some.inj (hcarries.place.symm.trans hplace))
  have hkept : ∀ {i}, (update s.swapDiskTable slot e i).inUse = true →
      i ≠ slot ∧ update s.swapDiskTable slot e i = s.swapDiskTable i := by
    intro i hi
    have his : i ≠ slot := by
      rintro rfl
      rw [update_self, he] at hi
      cases hi
    exact ⟨his, update_of_ne his ..⟩
  refine ⟨Journal.along_append.mpr ⟨hf.past, trivial, trivial, trivial, trivial, ?_, trivial⟩,
    fun i hi => ?_, fun i k hi hk heq => ?_⟩
  · simp only [Journal.Finds, Journal.note, hw]
    exact ⟨hwtype, hcarries.type, hsame⟩
  · simp only [List.foldl_append, List.foldl_cons, List.foldl_nil, Journal.note]
    dsimp only [Kernel.ledger] at hi ⊢
    obtain ⟨his, hsi⟩ := hkept hi
    rw [hsi] at hi ⊢
    have hne : (s.swapDiskTable i).page ≠ (some t, va) := by
      rw [← hpage]
      exact fun heq => his (hf.once i slot hi huse heq)
    rw [update_of_ne hne]
    exact hf.pages i hi
  · have hsi := (hkept hi).2
    have hsk := (hkept hk).2
    dsimp only at hi hk heq
    rw [hsi] at hi heq
    rw [hsk] at hk heq
    exact hf.once i k hi hk heq

theorem Findable.move (hf : Findable h s.ledger) (hm : SwapMove True t s n s')
    (honce : OutOnce (h ++ n)) : Findable (h ++ n) s'.ledger := by
  cases hm with
  | aside hl hev => exact hl ▸ hf.minor hev
  | leak _ hl hev => exact hl ▸ (hf.minor hev).of_eq rfl rfl
  | @out s0 _ _ _ _ _ _ _ _ hslot hcap h0 hh _ he hl =>
    have htable : s.swapDiskTable = s0.swapDiskTable := (congrArg Ledger.table h0).symm
    have hf0 : Findable h s0.ledger := by
      rw [h0]
      exact hf.of_eq rfl rfl
    obtain ⟨a, b, c, rfl, -⟩ := id hh.notes
    rw [hl, htable]
    exact hf0.out hh he (Journal.along_append.mp honce).2.2.2.2.2.1
  | fetch _ huse howner hvaddr hh hl =>
    rw [hl]
    exact hf.fetch huse (congrArg₂ Prod.mk howner hvaddr) hh rfl

/-- As long as no change of the RAID mode moves a page that is out, and no
page goes out that is out already, every `swap_page_in` reads where the
last `swap_page_out` of its page wrote. -/
theorem swap_in_reads_back {n : Notes Event Kernel} {s : Kernel}
    (hr : SwapRun SwapStart PlacesKept n s) (honce : OutOnce n) : ReadsBack n := by
  refine ((SwapRun.keeps True (I := fun n s => OutOnce n → Findable n s.ledger)
    ?_ ?_ ?_ ?_ ?_ hr).2 honce).past
  · intro s hs
    have hfree : ∀ i, (s.ledger.table i).inUse ≠ true := fun i hi =>
      absurd ((hs.free i).symm.trans hi) (by decide)
    exact ⟨hs.idle, fun _ => ⟨trivial, fun i hi => absurd hi (hfree i),
      fun i _ hi => absurd hi (hfree i)⟩⟩
  · exact fun _ _ _ hl => absurd trivial hl
  · exact fun _ _ _ _ _ hI hm hx => (hI (Journal.along_append.mp hx).1).move hm hx
  · intro mode h s hI hc hx
    obtain ⟨raid, hmode⟩ : ∃ raid, after (setRaidMode mode) s = { s with raidMode := raid } := by
      simp only [after, setRaidMode, modify_run]
      split
      · exact ⟨_, rfl⟩
      split
      · exact ⟨_, rfl⟩
      split
      · exact ⟨_, rfl⟩
      · exact ⟨_, rfl⟩
    dsimp only [PlacesKept] at hc
    rw [hmode] at hc ⊢
    have hf := hI hx
    refine ⟨hf.past, fun i hi => ?_, hf.once⟩
    obtain ⟨hout, w, hw, hwtype, hplace⟩ := hf.pages i hi
    exact ⟨hout, w, hw, hwtype, (hc i hi).trans hplace⟩
  · exact fun _ _ _ hI hap => ⟨hap, fun hx => (hI hx).of_eq hap.swapDiskTable hap.raidMode⟩

theorem placesKept_of_check (c : SwapCall) (n : Notes Event Kernel)
    (s : Kernel) (h : modeFixed c n s = true) : PlacesKept c n s := by
  cases c with
  | setRaidMode mode => cases h
  | swapPageOut t pa | swapPageIn t va | evictPage t | setdisksched policy => trivial

/-- The mode is set to RAID 1, and a page goes out and comes back in. -/
theorem swap_in_reads_back_trip : ∃ n s, SwapRun SwapStart PlacesKept n s ∧ OutOnce n
      ∧ Event.cleared 0 0 0x1000 ∈ n.map Prod.fst ∧ s.raidMode = .raid1
      ∧ ReadsBack n := by
  have hkept : PlacesKept (.setRaidMode 1) [] fives := fun i hi => nomatch hi
  have hset : SwapRun SwapStart PlacesKept [] mirrored := Course.step (.setRaidMode 1)
      (.init ⟨fun _ => rfl, rfl, idle_iff.mpr ⟨rfl, rfl⟩⟩) hkept rfl
  obtain ⟨n, s, hr, honce, hin, hmode⟩ := hset.played (P := fun n s => OutOnce n
      ∧ Event.cleared 0 0 0x1000 ∈ n.map Prod.fst ∧ s.raidMode = .raid1)
    modeFixed placesKept_of_check [.swapPageOut 0 0x80024000, .swapPageIn 0 0x1000]
    (by decide +kernel)
  exact ⟨n, s, hr, honce, hin, hmode, swap_in_reads_back hr honce⟩

/-- A page goes out in RAID 0 and is looked for in RAID 5; and, without a
change of the mode, a page that goes out twice is read where it was
written first. -/
theorem swap_in_misses :
    (∃ n s, SwapRun SwapStart (fun _ _ _ => True) n s ∧ OutOnce n ∧ ¬ ReadsBack n)
      ∧ ∃ n s, SwapRun SwapStart ModeFixed n s ∧ ¬ ReadsBack n := by
  have hstart : ∀ cond, SwapRun SwapStart cond [] sevens :=
    fun _ => .init ⟨fun _ => rfl, rfl, idle_iff.mpr ⟨rfl, rfl⟩⟩
  constructor
  · exact (hstart _).played (P := fun n _ => OutOnce n ∧ ¬ ReadsBack n) (fun _ _ _ => true)
      (fun _ _ _ _ => trivial)
      [.swapPageOut 0 0x80024000, .setRaidMode 2, .swapPageIn 0 0x1000] (by decide +kernel)
  · exact (hstart _).played (P := fun n _ => ¬ ReadsBack n) modeFixed modeFixed_of_check
      [.swapPageOut 0 0x80024000, .swapPageOut 0 0x80024000, .swapPageIn 0 0x1000]
      (by decide +kernel)

end GemOS
