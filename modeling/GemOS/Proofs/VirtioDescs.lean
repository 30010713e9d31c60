/-
Who owns the descriptors of the virtio disk.

# The owners

A call that waits for its request has three descriptors, linked to a chain
(`Linked`), and every descriptor that is not free is in the chain of one
call (`Owned`).

# The way of a request

The head of a chain goes from the avail ring to the device and from there
to the used ring. `queue` is the three places one after the other; the
heads in it are those of the requests that are not finished, each once
(`Disciplined`). As there are only `NUM` heads, neither ring is ever full,
and the 16-bit indices can be told apart.

# Allocating and freeing

`Touched` says what `alloc3_desc` and `free_chain` leave alone; neither
panics when it is called as it should be.
-/
import Mathlib.Data.List.Perm.Subperm
import GemOS.Lib.Ring
import GemOS.Lib.WpNotes
import GemOS.Kernel.Virtio

namespace GemOS

open Function Prog

namespace Virtio

variable {τ β : Type}

-- ======== 16-bit indices

section index

variable {a b : UInt16}

/-- The cell of an index, counted from another one. -/
theorem cell_eq (a b : UInt16) : b.toNat % num = (a.toNat + (b - a).toNat) % num := by
  have ha := a.toNat_lt
  have hb := b.toNat_lt
  rw [UInt16.toNat_sub]
  simp only [num]
  omega

/-- Indices run modulo `2^16`. -/
theorem distance_pos (h : a ≠ b) : 0 < (b - a).toNat := by
  have ha := a.toNat_lt
  have hb := b.toNat_lt
  have hne : a.toNat ≠ b.toNat := fun he => h (UInt16.toNat_inj.mp he)
  rw [UInt16.toNat_sub]
  omega

theorem distance_succ (h : (b - a).toNat < num) : (b + 1 - a).toNat = (b - a).toNat + 1 := by
  have ha := a.toNat_lt
  have hb := b.toNat_lt
  rw [UInt16.toNat_sub] at *
  rw [UInt16.toNat_sub, UInt16.toNat_add]
  simp only [UInt16.toNat_one, num] at *
  omega

theorem distance_pred (h : a ≠ b) : (b - a).toNat = (b - (a + 1)).toNat + 1 := by
  have hpos := distance_pos h
  have ha := a.toNat_lt
  have hb := b.toNat_lt
  rw [UInt16.toNat_sub] at *
  rw [UInt16.toNat_sub, UInt16.toNat_add]
  simp only [UInt16.toNat_one] at *
  omega

/-- What the cells between two indices hold. -/
def between (ring : Nat → Nat) (a b : UInt16) : List Nat :=
  Ring.window num ring a.toNat (b - a).toNat

/-- A driver or device that adds to a ring. -/
theorem between_push (ring : Nat → Nat) (h : Nat) (hroom : (between ring a b).length < num) :
    between (update ring (b.toNat % num) h) a (b + 1) = between ring a b ++ [h] := by
  unfold between at *
  rw [Ring.length_window] at hroom
  rw [distance_succ hroom, cell_eq a b, Ring.window_snoc,
    update_self, Ring.window_update h le_rfl hroom]

theorem between_pop (ring : Nat → Nat) (h : a ≠ b) :
    between ring a b = ring (a.toNat % num) :: between ring (a + 1) b := by
  unfold between
  rw [distance_pred h, Ring.window_cons]
  refine congrArg _ (Ring.window_congr ?_)
  rw [UInt16.toNat_add]
  exact (Nat.mod_mod_of_dvd _ (by decide)).symm

theorem between_self (ring : Nat → Nat) (a : UInt16) : between ring a a = [] := by
  unfold between
  rw [UInt16.sub_self]
  rfl

end index

-- ======== the owners

/-- The call a thread is in. -/
def Pos.call : Pos β → Option (Call β)
  | .idle => none
  | .outside c | .inside c | .asleep _ c => some c

/-- The descriptors of a call. -/
def Call.idx (c : Call β) : List Nat :=
  match c.stage with
  | .alloc => []
  | .wait i0 i1 i2 => [i0, i1, i2]

namespace Sys

/-- The descriptors of a thread's request. -/
def chain (s : Sys τ β) (t : τ) : List Nat :=
  match (s.pos t).call with
  | none => []
  | some c => c.idx

/-- A request of `t` for `b` is in flight with these descriptors. -/
def InFlight (s : Sys τ β) (t : τ) (b : β) (i0 i1 i2 : Nat) : Prop :=
  ∃ write, (s.pos t).call = some ⟨b, write, .wait i0 i1 i2⟩

/-- Offered to the device and not read by it. -/
def offered (s : Sys τ β) : List Nat :=
  between s.disk.availRing s.devIdx s.disk.availIdx

/-- In the hands of the device. -/
def working (s : Sys τ β) : List Nat := s.devWork.map DevReq.head

/-- Completed by the device and not seen by the driver. -/
def finished (s : Sys τ β) : List Nat :=
  between s.disk.usedRing s.disk.seenIdx s.disk.usedIdx

def queue (s : Sys τ β) : List Nat := s.offered ++ (s.working ++ s.finished)

end Sys

/-- The descriptors are a chain for `b`, as `virtio_disk_rw` builds it. -/
structure Disk.Linked (d : Disk β) (b : β) (i0 i1 i2 : Nat) : Prop where
  lt : i0 < num ∧ i1 < num ∧ i2 < num
  nodup : [i0, i1, i2].Nodup
  first : (d.desc i0).flags &&& descNext ≠ 0 ∧ (d.desc i0).next = i1
  second : (d.desc i1).flags &&& descNext ≠ 0 ∧ (d.desc i1).next = i2
  third : (d.desc i2).flags &&& descNext = 0
  data : (d.desc i1).addr = .data b
  status : (d.desc i2).addr = .status i0
  info : (d.info i0).b = some b

variable {i0 i1 i2 : Nat}

/-- The link is a matter of the three descriptors and the buffer noted for
the first one. -/
theorem Disk.Linked.congr {d d' : Disk β} {b : β} (h : d.Linked b i0 i1 i2)
    (hd : ∀ i ∈ [i0, i1, i2], d'.desc i = d.desc i)
    (hi : (d'.info i0).b = (d.info i0).b) : d'.Linked b i0 i1 i2 := by
  have h0 := hd i0 (by simp)
  have h1 := hd i1 (by simp)
  have h2 := hd i2 (by simp)
  refine ⟨h.lt, h.nodup, ?_, ?_, ?_, ?_, ?_, hi.trans h.info⟩
  · rw [h0]; exact h.first
  · rw [h1]; exact h.second
  · rw [h2]; exact h.third
  · rw [h1]; exact h.data
  · rw [h2]; exact h.status

/-- The three descriptors that `virtio_disk_rw` fills form a chain. -/
theorem Disk.linked_format (d : Disk β) (b : β) (sector : UInt64) (write : Bool)
    (hlt : i0 < num ∧ i1 < num ∧ i2 < num) (hnd : [i0, i1, i2].Nodup) :
    (d.format b sector write i0 i1 i2).Linked b i0 i1 i2 := by
  simp only [List.nodup_cons, List.mem_cons, List.not_mem_nil, or_false,
    not_or, not_false_eq_true, List.nodup_nil, and_true] at hnd
  obtain ⟨⟨h01, h02⟩, h12⟩ := hnd
  have hd0 : (d.format b sector write i0 i1 i2).desc i0 = ⟨.op i0, 16, descNext, i1⟩ := by
    dsimp only [Disk.format]
    rw [update_of_ne h02, update_of_ne h01, update_self]
  have hd1 : (d.format b sector write i0 i1 i2).desc i1
      = ⟨.data b, bsize, (if write then 0 else descWrite) ||| descNext, i2⟩ := by
    dsimp only [Disk.format]
    rw [update_of_ne h12, update_self]
  have hd2 : (d.format b sector write i0 i1 i2).desc i2
      = ⟨.status i0, 1, descWrite, 0⟩ := update_self ..
  refine ⟨hlt, ?_, ?_, ?_, ?_, ?_, ?_, ?_⟩
  · simp [h01, h02, h12]
  · rw [hd0]
    exact ⟨show descNext &&& descNext ≠ 0 by decide, rfl⟩
  · rw [hd1]
    refine ⟨?_, rfl⟩
    cases write with
    | true => exact show (0 ||| descNext) &&& descNext ≠ 0 by decide
    | false => exact show (descWrite ||| descNext) &&& descNext ≠ 0 by decide
  · rw [hd2]
    exact show descWrite &&& descNext = 0 by decide
  · rw [hd1]
  · rw [hd2]
  · show (update d.info i0 ⟨some b, 0xff⟩ i0).b = some b
    rw [update_self]

/-- Other descriptors are not formatted. -/
theorem Disk.format_desc (d : Disk β) (b : β) (sector : UInt64) (write : Bool)
    {i : Nat} (hi : i ∉ [i0, i1, i2]) : (d.format b sector write i0 i1 i2).desc i = d.desc i := by
  simp only [List.mem_cons, List.not_mem_nil, or_false, not_or] at hi
  dsimp only [Disk.format]
  rw [update_of_ne hi.2.2, update_of_ne hi.2.1, update_of_ne hi.1]

/-- Every descriptor is free or in the chain of one call. -/
structure Owned (s : Sys τ β) : Prop where
  held : ∀ t c, (s.pos t).call = some c → s.block c.b = some t
  linked : ∀ t b i0 i1 i2, s.InFlight t b i0 i1 i2 → s.disk.Linked b i0 i1 i2
  taken : ∀ t, ∀ i ∈ s.chain t, s.disk.free i = false
  owned : ∀ i < num, s.disk.free i = false → ∃ t, i ∈ s.chain t
  apart : ∀ t u i, i ∈ s.chain t → i ∈ s.chain u → t = u

/-- And the heads of the requests that are not finished are on their
way. -/
structure Disciplined (s : Sys τ β) : Prop extends Owned s where
  once : s.queue.Nodup
  heads : ∀ h, h ∈ s.queue ↔ ∃ t b i1 i2, s.InFlight t b h i1 i2 ∧ s.bdisk b = true
  work : ∀ r ∈ s.devWork, r.status = .status r.head
  status : ∀ h ∈ s.finished, (s.disk.info h).status = 0

section facts

variable {s s' : Sys τ β} {t u : τ} {b c : β} {i0 i1 i2 h : Nat}

/-- What a waiting process has taken. -/
theorem Sys.InFlight.chain (hf : s.InFlight t b i0 i1 i2) : s.chain t = [i0, i1, i2] := by
  obtain ⟨write, hc⟩ := hf
  unfold Sys.chain
  rw [hc]
  rfl

theorem Sys.InFlight.head_mem (hf : s.InFlight t b i0 i1 i2) : i0 ∈ s.chain t := by
  rw [hf.chain]
  exact List.mem_cons_self ..

variable {j0 j1 j2 i : Nat}

/-- What a thread has in flight is one request. -/
theorem Sys.InFlight.unique (hf : s.InFlight t b i0 i1 i2)
    (hg : s.InFlight t c j0 j1 j2) : b = c ∧ i0 = j0 ∧ i1 = j1 ∧ i2 = j2 := by
  obtain ⟨w, hc⟩ := hf
  obtain ⟨w', hc'⟩ := hg
  rw [hc] at hc'
  cases hc'
  exact ⟨rfl, rfl, rfl, rfl⟩

/-- A head belongs to one request. -/
theorem Owned.same_head (hd : Owned s) (hf : s.InFlight t b h i1 i2)
    (hg : s.InFlight u c h j1 j2) : t = u ∧ b = c := by
  obtain rfl := hd.apart t u h hf.head_mem hg.head_mem
  exact ⟨rfl, (hf.unique hg).1⟩

/-- So does a buffer. -/
theorem Owned.same_buf (hd : Owned s) (hf : s.InFlight t b i0 i1 i2)
    (hg : s.InFlight u b j0 j1 j2) : t = u := by
  obtain ⟨w, hc⟩ := hf
  obtain ⟨w', hc'⟩ := hg
  have ht : s.block b = some t := hd.held t _ hc
  have hu : s.block b = some u := hd.held u _ hc'
  exact Option.some.inj (ht.symm.trans hu)

/-- A free descriptor is in no chain. -/
theorem Owned.not_mem_chain (hd : Owned s) (hi : s.disk.free i = true) (u : τ) : i ∉ s.chain u := by
  intro hm
  rw [hd.taken u i hm] at hi
  cases hi

theorem Disciplined.queue_lt (hd : Disciplined s) (hh : h ∈ s.queue) : h < num := by
  obtain ⟨t, b, i1, i2, hf, -⟩ := (hd.heads h).mp hh
  exact (hd.linked t b h i1 i2 hf).lt.1

/-- Different numbers below `NUM` are at most `NUM`. -/
theorem length_le_of_nodup {l : List Nat} (hn : l.Nodup)
    (hlt : ∀ i ∈ l, i < num) : l.length ≤ num := by
  have hsub : l ⊆ List.range num := fun i hi => List.mem_range.mpr (hlt i hi)
  have hle := (hn.subperm hsub).length_le
  rwa [List.length_range] at hle

/-- There are no more requests than descriptors. -/
theorem Disciplined.queue_length (hd : Disciplined s) : s.queue.length ≤ num :=
  length_le_of_nodup hd.once fun _ => hd.queue_lt

end facts

-- ======== allocating and freeing

/-- All of the state but the free map, the descriptors and the places. -/
def Sys.rest (s : Sys τ β) :=
  (s.disk.info, s.disk.availIdx, s.disk.availRing, s.disk.usedIdx,
    s.disk.usedRing, s.disk.seenIdx, s.bdisk, s.block, s.devIdx, s.devWork)

/-- Only the descriptors of `l` may have changed. -/
structure Touched (l : List Nat) (s s' : Sys τ β) : Prop where
  free : ∀ i, i ∉ l → s'.disk.free i = s.disk.free i
  desc : ∀ i, i ∉ l → s'.disk.desc i = s.disk.desc i
  rest : s'.rest = s.rest
  calls : ∀ t, (s'.pos t).call = (s.pos t).call

namespace Touched

variable {l l' : List Nat} {s s1 s' : Sys τ β}

theorem refl (s : Sys τ β) : Touched [] s s := ⟨fun _ _ => rfl, fun _ _ => rfl, rfl, fun _ => rfl⟩

theorem trans (h : Touched l s s1) (h' : Touched l' s1 s') : Touched (l ++ l') s s' := by
  refine ⟨fun i hi => ?_, fun i hi => ?_, h'.rest.trans h.rest,
    fun t => (h'.calls t).trans (h.calls t)⟩
  · rw [List.mem_append, not_or] at hi
    exact (h'.free i hi.2).trans (h.free i hi.1)
  · rw [List.mem_append, not_or] at hi
    exact (h'.desc i hi.2).trans (h.desc i hi.1)

variable (h : Touched l s s')

include h

theorem mono (hl : l ⊆ l') : Touched l' s s' :=
  ⟨fun i hi => h.free i fun hm => hi (hl hm),
    fun i hi => h.desc i fun hm => hi (hl hm), h.rest, h.calls⟩

theorem chain (t : τ) : s'.chain t = s.chain t := by
  unfold Sys.chain
  rw [h.calls t]

/-- The places of the processes are not touched. -/
theorem inFlight {t : τ} {b : β} {i0 i1 i2 : Nat} :
    s'.InFlight t b i0 i1 i2 ↔ s.InFlight t b i0 i1 i2 := by
  unfold Sys.InFlight
  rw [h.calls t]

theorem info : s'.disk.info = s.disk.info := congrArg Prod.fst h.rest

theorem queue : s'.offered = s.offered
    ∧ s'.working = s.working ∧ s'.finished = s.finished := by
  have hrest := h.rest
  simp only [Sys.rest, Prod.mk.injEq] at hrest
  obtain ⟨-, ha, hr, hu, hur, hs, -, -, hdi, hdw⟩ := hrest
  unfold Sys.offered Sys.working Sys.finished
  rw [ha, hr, hu, hur, hs, hdi, hdw]
  exact ⟨rfl, rfl, rfl⟩

theorem bufs : s'.bdisk = s.bdisk
    ∧ s'.block = s.block ∧ s'.devWork = s.devWork := by
  have hrest := h.rest
  simp only [Sys.rest, Prod.mk.injEq] at hrest
  obtain ⟨-, -, -, -, -, -, hb, hbl, -, hdw⟩ := hrest
  exact ⟨hb, hbl, hdw⟩

end Touched

section descriptors

variable [DecidableEq β] {s : Sys τ β} {E : Stop → Prop}

theorem Pos.call_woken (chan : Chan β) (a : Pos β) : (a.woken chan).call = a.call := by
  cases a with
  | asleep ch c =>
    show (if ch = chan then Pos.outside c else .asleep ch c).call = _
    split <;> rfl
  | _ => rfl

omit [DecidableEq β] in
/-- `alloc_desc` takes a free descriptor if there is one. -/
theorem wpn_allocDesc (s : Sys τ β) : wpn E allocDesc (fun r s' _ =>
      match r with
      | none => s' = s
      | some i => i < num ∧ s.disk.free i = true
          ∧ s'.disk.free i = false ∧ Touched [i] s s') s := by
  unfold allocDesc
  refine wpn.get_bind ?_
  split
  · next i hi =>
    refine wpn.modify_bind (wpn.pure ⟨?_, ?_, ?_, ?_⟩)
    · exact List.mem_range.mp (List.mem_of_find?_eq_some hi)
    · exact List.find?_some hi
    · exact update_self ..
    · refine ⟨fun j hj => update_of_ne ?_ .., fun _ _ => rfl, rfl, fun _ => rfl⟩
      exact fun he => hj (List.mem_singleton.mpr he)
  · exact wpn.pure rfl

variable {i : Nat} {d : Disk β} {l : List Nat}

/-- `free_desc` does not panic for one that is taken. -/
theorem wpn_freeDesc (hi : i < num) (hf : s.disk.free i = false) : wpn E (freeDesc i) (fun _ s' _ =>
      s'.disk.free i = true ∧ Touched [i] s s') s := by
  unfold freeDesc
  refine wpn.get_bind ?_
  rw [if_neg (Nat.not_le.mpr hi), if_neg (by rw [hf]; exact Bool.noConfusion)]
  refine wpn.modify_bind (wpn.modify ⟨update_self .., ?_⟩)
  refine ⟨fun j hj => update_of_ne ?_ .., fun j hj => update_of_ne ?_ .., rfl,
    fun t => (s.pos t).call_woken .free⟩
  · exact fun he => hj (List.mem_singleton.mpr he)
  · exact fun he => hj (List.mem_singleton.mpr he)

/-- What `alloc3_desc` leaves behind: three descriptors, or nothing. -/
def Alloced (s : Sys τ β) : Option (Nat × Nat × Nat) → Sys τ β → Prop
  | none, s' => ∃ l, Touched l s s' ∧ ∀ i ∈ l, s.disk.free i = true ∧ s'.disk.free i = true
  | some (i0, i1, i2), s' => [i0, i1, i2].Nodup
      ∧ (∀ i ∈ [i0, i1, i2], i < num ∧ s.disk.free i = true
        ∧ s'.disk.free i = false) ∧ Touched [i0, i1, i2] s s'

/-- `alloc3_desc` takes three or gives back what it took. -/
theorem wpn_alloc3Desc (s : Sys τ β) : wpn E alloc3Desc (fun r s' _ => Alloced s r s') s := by
  unfold alloc3Desc
  refine (wpn_allocDesc s).bind fun r s1 _ h0 => ?_
  match r with
  | none =>
    subst h0
    exact wpn.pure ⟨[], .refl s1, fun _ => nofun⟩
  | some i0 =>
  obtain ⟨hlt0, hf0, hn0, ht0⟩ := h0
  refine (wpn_allocDesc s1).bind fun r s2 _ h1 => ?_
  match r with
  | none =>
    subst h1
    -- the first one is given back
    refine (wpn_freeDesc hlt0 hn0).bind fun _ s3 _ h => wpn.pure ?_
    refine ⟨[i0], (ht0.trans h.2).mono (by simp), fun i hi => ?_⟩
    rw [List.mem_singleton.mp hi]
    exact ⟨hf0, h.1⟩
  | some i1 =>
  obtain ⟨hlt1, hf1, hn1, ht1⟩ := h1
  have hne1 : i1 ≠ i0 := by grind
  have hs1 : s.disk.free i1 = true := (ht0.free i1 (by simpa using hne1)).symm.trans hf1
  have hn02 : s2.disk.free i0 = false := (ht1.free i0 (by simpa using hne1.symm)).trans hn0
  refine (wpn_allocDesc s2).bind fun r s3 _ h2 => ?_
  match r with
  | none =>
    subst h2
    refine (wpn_freeDesc hlt0 hn02).bind fun _ s4 _ h4 => ?_
    have hn14 : s4.disk.free i1 = false := (h4.2.free i1 (by simpa using hne1)).trans hn1
    refine (wpn_freeDesc hlt1 hn14).bind fun _ s5 _ h5 => wpn.pure ?_
    have ht := ((ht0.trans ht1).trans h4.2).trans h5.2
    refine ⟨[i0, i1], ht.mono (by simp), fun i hi => ?_⟩
    have hi0 : s5.disk.free i0 = true := (h5.2.free i0 (by simpa using hne1.symm)).trans h4.1
    simp only [List.mem_cons, List.not_mem_nil, or_false] at hi
    rcases hi with rfl | rfl
    · exact ⟨hf0, hi0⟩
    · exact ⟨hs1, h5.1⟩
  | some i2 =>
  obtain ⟨hlt2, hf2, hn2, ht2⟩ := h2
  have hne20 : i2 ≠ i0 := by grind
  have hne21 : i2 ≠ i1 := by grind
  have ht := ht0.trans ht1
  have hs2 : s.disk.free i2 = true := (ht.free i2 (by simp [hne20, hne21])).symm.trans hf2
  refine wpn.pure ⟨?_, fun i hi => ?_, ht.trans ht2⟩
  · simp [hne1.symm, hne20.symm, hne21.symm]
  · grind [ht2.free]

/-- The descriptors of the list are linked in its order. -/
def Disk.Chained (d : Disk β) : List Nat → Prop
  | [] => False
  | [i] => (d.desc i).flags &&& descNext = 0
  | i :: j :: l => (d.desc i).flags &&& descNext ≠ 0 ∧ (d.desc i).next = j ∧ d.Chained (j :: l)

omit [DecidableEq β] in
/-- A chain depends on its own descriptors. -/
theorem Disk.Chained.congr {d' : Disk β} (hd : ∀ i ∈ l, d'.desc i = d.desc i)
    (h : d.Chained l) : d'.Chained l := by
  induction l with
  | nil => exact h
  | cons i l ih =>
    have hi := hd i (List.mem_cons_self ..)
    cases l with
    | nil =>
      show (d'.desc i).flags &&& descNext = 0
      rw [hi]
      exact h
    | cons j l =>
      show (d'.desc i).flags &&& descNext ≠ 0 ∧ (d'.desc i).next = j ∧ _
      rw [hi]
      exact ⟨h.1, h.2.1, ih (fun k hk => hd k (List.mem_cons_of_mem _ hk)) h.2.2⟩

omit [DecidableEq β] in
theorem Disk.Linked.chained {b : β} {i0 i1 i2 : Nat} (h : d.Linked b i0 i1 i2) :
    d.Chained [i0, i1, i2] :=
  ⟨h.first.1, h.first.2, h.second.1, h.second.2, h.third⟩

/-- `free_chain` frees a chain, descriptor by descriptor. -/
theorem wpn_freeChain {k : Nat} (hk : l.length < k)
    (hlt : ∀ j ∈ i :: l, j < num) (hnd : (i :: l).Nodup)
    (hc : s.disk.Chained (i :: l)) (hf : ∀ j ∈ i :: l, s.disk.free j = false) :
    wpn E (freeChain k i) (fun _ s' _ =>
      (∀ j ∈ i :: l, s'.disk.free j = true) ∧ Touched (i :: l) s s') s := by
  induction l generalizing s i k with
  | nil =>
    obtain ⟨k, rfl⟩ := Nat.exists_eq_succ_of_ne_zero (Nat.ne_of_gt hk)
    unfold freeChain
    refine wpn.get_bind ((wpn_freeDesc (hlt i (List.mem_cons_self ..))
      (hf i (List.mem_cons_self ..))).bind fun _ s1 _ h1 => ?_)
    have hlast : (s.disk.desc i).flags &&& descNext = 0 := hc
    rw [if_neg (not_not.mpr hlast)]
    refine wpn.pure ⟨fun j hj => ?_, h1.2⟩
    rw [List.mem_singleton.mp hj]
    exact h1.1
  | cons j l ih =>
    obtain ⟨k, rfl⟩ := Nat.exists_eq_succ_of_ne_zero (Nat.ne_of_gt (Nat.zero_lt_of_lt hk))
    unfold freeChain
    refine wpn.get_bind ((wpn_freeDesc (hlt i (List.mem_cons_self ..))
      (hf i (List.mem_cons_self ..))).bind fun _ s1 _ h1 => ?_)
    obtain ⟨hnext, hj, hrest⟩ := hc
    rw [if_pos hnext, hj]
    obtain ⟨hni, hnd⟩ := List.nodup_cons.mp hnd
    have hout : ∀ m ∈ j :: l, m ∉ [i] := by grind [List.mem_singleton]
    refine (ih (Nat.lt_of_succ_lt_succ hk) (fun m hm => hlt m (List.mem_cons_of_mem _ hm)) hnd
      (hrest.congr fun m hm => h1.2.desc m (hout m hm)) fun m hm => (h1.2.free m (hout m hm)).trans
        (hf m (List.mem_cons_of_mem _ hm))).mono fun _ s2 _ h2 => ?_
    refine ⟨fun m hm => ?_, h1.2.trans h2.2⟩
    rcases List.mem_cons.mp hm with rfl | hm
    · exact (h2.2.free m hni).trans h1.1
    · exact h2.1 m hm

end descriptors

end Virtio

end GemOS
