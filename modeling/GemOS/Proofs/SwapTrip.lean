/-
A page's way to the swap disk and back.

No byte of the page travels: `process_disk_request` moves a head and
counts. What `swap_page_in` maps is the page `kalloc` has just filled
with fives, and it maps it readable and writable for the user whatever
the permissions were. So a page survives the trip exactly when it held
that filling and had those permissions.
-/
import GemOS.Proofs.Evict
import GemOS.Proofs.Pte
import GemOS.Proofs.Request

namespace GemOS

open Function Prog

-- ======== the swap-in

/-- The states in which one call runs by itself: no interference, no
request pending, a sound free list. -/
structure Alone (s : Kernel) : Prop where
  env : s.env = []
  idle : Idle s
  pages : PagesApart s []

variable {pa va : Nat} {s s' : Kernel} {t : List (Mark × Kernel)} {p : ProcId}

/-- Without interference a page for `swap_page_in` comes from the free
list: when that is empty, the eviction cannot get its request
allocated. -/
theorem kallocOrEvict_alone {r : Option Nat} (henv : s.env = [])
    (h : kallocOrEvict s = .ok (r, s', t)) : t = [] ∧ ((s.freelist = [] ∧ r = none ∧ s.Evictable)
      ∨ ∃ pa rest, s.freelist = pa :: rest ∧ r = some pa ∧ s' = s.popped pa rest) := by
  have hk := kalloc_run s
  rw [s.interfered_of_env_nil henv] at hk
  unfold kallocOrEvict at h
  cases hfree : s.freelist with
  | nil =>
    rw [hfree] at hk
    rw [bind_run_quiet hk] at h
    -- the scan may hang; if it does not, the eviction fails
    by_cases hev : s.Evictable
    · obtain ⟨s1, hrun⟩ := Exhausted.evictPage ⟨hfree, henv⟩ hev
      cases hrun.symm.trans h
      exact ⟨rfl, .inl ⟨rfl, rfl, hev⟩⟩
    · exact absurd h (evictPage_hangs hev r t)
  | cons a rest =>
    rw [hfree] at hk
    rw [bind_run_quiet hk] at h
    cases h
    exact ⟨rfl, .inr ⟨a, rest, rfl, rfl, rfl⟩⟩

/-- The part of `swap_page_in` behind the disk request. -/
theorem mapSwappedIn {slot : Nat} (hout : pa ∉ s.freelist ++ s.held)
    (hmem : s.mem pa = fill 5) (h : (do
      clearSwap slot
      let root ← pagetableOf p
      if (← mappages root va pgsize pa (pteW ||| pteU ||| pteR)) ≠ 0 then
        kfree pa
        return (-1 : Int)
      else
        updateFrameTable p va pa
        countSwapIn p
        return 0 : K Int) s = .ok (0, s', t)) :
    s'.procPte p va = (pa2pte pa ||| (pteW ||| pteU ||| pteR) ||| pteV) ∧ s'.mem pa = fill 5 := by
  simp only [clearSwap, modify_bind_run] at h
  obtain ⟨root, s1, t1, t2, hroot, h1, rfl⟩ := bind_ok h
  obtain ⟨rfl, rfl, hpt⟩ := pagetableOf_ok hroot
  obtain ⟨r, s2, t3, t4, hmap, h2, rfl⟩ := bind_ok h1
  obtain ⟨-, ⟨rfl, s3, hw, hinv, rfl, rfl⟩ | ⟨rfl, -⟩⟩ := mappages_cases hmap
  · obtain ⟨-, -, -, hdesc, hmid⟩ := walk_ok hw
    have hm : s3.mem pa = fill 5 := (hdesc.mem pa hout).trans hmem
    have hproc : s3.proc = s.proc := by
      obtain ⟨fl, hd, m, e, pts, hs3⟩ := hdesc.shape
      rw [hs3]
      rfl
    obtain ⟨table, hreg⟩ := (s3.setLeaf root va
      (pa2pte pa ||| (pteW ||| pteU ||| pteR) ||| pteV)).registered_shape p va pa
    simp only [ne_eq, not_true_eq_false, if_false, updateFrameTable,
      countSwapIn, modify_bind_run, pure_run, Except.ok.injEq, Prod.mk.injEq, hreg] at h2
    obtain ⟨-, rfl, -⟩ := h2
    refine ⟨?_, hm⟩
    have hp : (s3.proc p).pagetable = some root := by rw [hproc]; exact hpt
    simp only [Kernel.procPte, Kernel.updProc, update_self]
    rw [show (s3.setLeaf root va _).proc = s3.proc from rfl, hp]
    exact pte_setLeaf_self _ hmid.symm
  · obtain ⟨u, s3, t5, t6, hf, h3, rfl⟩ := bind_ok h2
    cases h3

/-- What `swap_page_in` has mapped when it reports success. -/
theorem swapPageIn_maps (h : Alone s) (hrun : swapPageIn p va s = .ok (0, s', t)) : ∃ pa, RamPage pa
      ∧ s'.procPte p va = (pa2pte pa ||| (pteW ||| pteU ||| pteR) ||| pteV)
      ∧ s'.mem pa = fill 5 := by
  simp only [swapPageIn, get_bind_run] at hrun
  cases hslot : s.swapSlotOf p va with
  | none => rw [hslot] at hrun; cases hrun
  | some slot =>
    rw [hslot] at hrun
    dsimp only at hrun
    obtain ⟨r, s1, t1, t2, hk, hrun1, rfl⟩ := bind_ok hrun
    obtain ⟨rfl, ⟨-, rfl, -⟩ | ⟨pa, rest, hfree, rfl, rfl⟩⟩ := kallocOrEvict_alone h.env hk
    · cases hrun1
    · have hram : RamPage pa := h.pages.ram pa (by rw [hfree]; simp)
      -- the page is no longer among those that later steps may touch
      have hout : pa ∉ (s.popped pa rest).freelist ++ (s.popped pa rest).held := by
        have hnd := h.pages.nodup
        rw [hfree, List.append_nil, List.cons_append] at hnd
        exact (List.nodup_cons.mp hnd).1
      have hidle : Idle (s.popped pa rest) := Linked.of_eq h.idle rfl rfl rfl
      obtain ⟨r, s2, t3, t4, hsub, hrun2, rfl⟩ := bind_ok hrun1
      obtain ⟨rfl, hr, hserved⟩ := submitRequest_ok hidle hsub
      have hout2 : pa ∉ s2.freelist ++ s2.held := fun hin => hout (hserved.perm.mem_iff.mp hin)
      have hmem2 : s2.mem pa = fill 5 := (hserved.mem pa hout).trans (update_self ..)
      rcases hr with rfl | rfl
      · exact ⟨pa, hram, mapSwappedIn hout2 hmem2 hrun2⟩
      · obtain ⟨u, s3, t5, t6, hf, hrun3, rfl⟩ := bind_ok hrun2
        cases hrun3

-- ======== the trip

/-- The `R`, `W`, `X` and `U` bits of a PTE. -/
def permBits (pte : Nat) : Nat := pte &&& (pteR ||| pteW ||| pteX ||| pteU)

theorem permBits_mapped (pa : Nat) : permBits (pa2pte pa ||| (pteW ||| pteU ||| pteR) ||| pteV)
      = (pteR ||| pteW ||| pteU) := by
  have hflags : pteFlags (pa2pte pa ||| (pteW ||| pteU ||| pteR) ||| pteV)
      = (pteW ||| pteU ||| pteR ||| pteV) := pteFlags_mapped pa (by decide)
  unfold pteFlags at hflags
  unfold permBits
  rw [show (pteR ||| pteW ||| pteX ||| pteU)
    = 0x3FF &&& (pteR ||| pteW ||| pteX ||| pteU) from rfl, ← Nat.and_assoc, hflags]
  rfl

/-- A page `va` of process `p` goes out from frame `pa` and comes back:
`s0` and `s1` are the states around `swap_page_out`, `s2` and `s3` those
around `swap_page_in`. Of what happens in between only this is assumed:
it leaves the PTE of the page alone, and no other call is under way when
the page comes back. -/
structure SwapTrip (p : ProcId) (va pa : Nat) (s0 s1 s2 s3 : Kernel) : Prop where
  resident : isV (s0.procPte p va) = true ∧ isU (s0.procPte p va) = true
    ∧ pte2pa (s0.procPte p va) = pa
  frame : ∃ idx, s0.getFrameEntry pa = some idx ∧ (s0.frameTable idx).inUse = true
    ∧ (s0.frameTable idx).owner = some p ∧ (s0.frameTable idx).vaddr = va
  out : ∃ t, swapPageOut pa s0 = .ok (0, s1, t)
  between : s2.procPte p va = s1.procPte p va
  alone : Alone s2
  back : ∃ t, swapPageIn p va s2 = .ok (0, s3, t)

/-- The page is mapped again, with its bytes and its permissions. -/
def Preserved (p : ProcId) (va pa : Nat) (s0 s3 : Kernel) : Prop :=
  isV (s3.procPte p va) = true ∧ s3.mem (pte2pa (s3.procPte p va)) = s0.mem pa
    ∧ permBits (s3.procPte p va) = permBits (s0.procPte p va)

theorem preserved_iff {s0 s2 s3 : Kernel} (halone : Alone s2)
    (hback : swapPageIn p va s2 = .ok (0, s3, t)) : Preserved p va pa s0 s3 ↔ s0.mem pa = fill 5
        ∧ permBits (s0.procPte p va) = (pteR ||| pteW ||| pteU) := by
  obtain ⟨pa', ⟨halign, -, hhi⟩, hpte, hmem⟩ := swapPageIn_maps halone hback
  have hpa : pte2pa (s3.procPte p va) = pa' := by
    rw [hpte]
    exact pte2pa_mapped halign hhi (by decide)
  unfold Preserved
  rw [hpa, hmem, hpte, isV_or_pteV, permBits_mapped]
  constructor
  · rintro ⟨-, hc, hperm⟩
    exact ⟨hc.symm, hperm.symm⟩
  · rintro ⟨hc, hperm⟩
    exact ⟨rfl, hc.symm, hperm.symm⟩

/-- A page survives its trip to the swap disk exactly when it was full
of fives and readable, writable and not executable for the user. -/
theorem swap_trip_preserves_iff {p : ProcId} {va pa : Nat}
    {s0 s1 s2 s3 : Kernel} (h : SwapTrip p va pa s0 s1 s2 s3) :
    Preserved p va pa s0 s3 ↔ s0.mem pa = fill 5
        ∧ permBits (s0.procPte p va) = (pteR ||| pteW ||| pteU) := by
  obtain ⟨t, hback⟩ := h.back
  exact preserved_iff h.alone hback

/-- A process with one registered page, at `0x1000`, and two free
pages. -/
def onePage (c : Page) (perm : Nat) : Kernel :=
  { Kernel.initial 0x80020000 0x80001000 [0x80030000, 0x80031000] with
    mem := update (fun _ => fill 0) 0x80024000 c
    proc := update (fun _ => .initial) 0 { Proc.initial with
        state := .running, sz := 0x2000, pagetable := some 0x80021000 }
    pagetables := update (fun _ => .dead) 0x80021000
      (((PageTable.empty.linkDir 0 0x80022000).linkMid 0 0x80023000).setLeaf 1
        (pa2pte 0x80024000 ||| perm ||| pteV))
    frameTable := update (fun _ => .initial) 4
      { inUse := true, owner := some 0, vaddr := 0x1000, refBit := true
        swapped := false, swapIndex := -1 } }

/-- A page of fives, with the permissions `swap_page_in` gives. -/
def fives : Kernel := onePage (fill 5) (pteR ||| pteW ||| pteU)

/-- A page of sevens. -/
def sevens : Kernel := onePage (fill 7) (pteR ||| pteW ||| pteU)

/-- Out and straight back in. -/
def swappedOut (s : Kernel) : Kernel := after (swapPageOut 0x80024000) s

def swappedBack (s : Kernel) : Kernel :=
  after (swapPageIn 0 0x1000) (swappedOut s)

set_option maxRecDepth 20000 in
theorem fives_trip : SwapTrip 0 0x1000 0x80024000 fives (swappedOut fives)
    (swappedOut fives) (swappedBack fives) :=
  ⟨⟨rfl, rfl, rfl⟩, ⟨4, rfl, rfl, rfl, rfl⟩, ⟨_, rfl⟩, rfl,
    ⟨rfl, idle_iff.mpr ⟨rfl, rfl⟩, by decide, by decide⟩, ⟨_, rfl⟩⟩

/-- The filling of `kalloc` does survive. -/
theorem swap_trip_preserves_fives :
    SwapTrip 0 0x1000 0x80024000 fives (swappedOut fives) (swappedOut fives) (swappedBack fives)
      ∧ Preserved 0 0x1000 0x80024000 fives (swappedBack fives) :=
  ⟨fives_trip, (swap_trip_preserves_iff fives_trip).mpr ⟨rfl, rfl⟩⟩

set_option maxRecDepth 20000 in
theorem sevens_trip : SwapTrip 0 0x1000 0x80024000 sevens (swappedOut sevens)
    (swappedOut sevens) (swappedBack sevens) :=
  ⟨⟨rfl, rfl, rfl⟩, ⟨4, rfl, rfl, rfl, rfl⟩, ⟨_, rfl⟩, rfl,
    ⟨rfl, idle_iff.mpr ⟨rfl, rfl⟩, by decide, by decide⟩, ⟨_, rfl⟩⟩

/-- Any other contents are lost. -/
theorem swap_trip_loses_sevens : SwapTrip 0 0x1000 0x80024000 sevens (swappedOut sevens)
        (swappedOut sevens) (swappedBack sevens)
      ∧ ¬ Preserved 0 0x1000 0x80024000 sevens (swappedBack sevens) := by
  refine ⟨sevens_trip, ?_⟩
  obtain ⟨t, hback⟩ := sevens_trip.back
  rw [preserved_iff sevens_trip.alone hback]
  rintro ⟨hc, -⟩
  have hbyte : (7 : UInt8) = 5 := congrFun hc 0
  exact absurd hbyte (by decide)

end GemOS
