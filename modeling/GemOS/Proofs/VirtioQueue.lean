/-
The discipline of the virtio driver, step by step and over whole runs.

A step of a thread is one of three kinds: it stays within its call, it
submits a request or it takes back the descriptors of a finished one. The
device passes heads on, and the interrupt handler takes them out of the
queue. Every step is not possible now or keeps the discipline of
`Proofs.VirtioDescs`: there is no panic.
-/
import GemOS.Proofs.VirtioDescs

namespace GemOS

open Function Prog

namespace Virtio

variable {τ β : Type}

-- ======== submitting

section requests

variable [DecidableEq τ] [DecidableEq β] {s s1 : Sys τ β} {t : τ} {b : β}
  {write : Bool} {i0 i1 i2 : Nat} {l : List Nat}

theorem Sys.submit_call (s : Sys τ β) (t : τ) : ((s.submit t b write i0 i1 i2).pos t).call
      = some ⟨b, write, .wait i0 i1 i2⟩ := by
  show (update s.pos t _ t).call = _
  rw [update_self]
  rfl

theorem Sys.submit_call_of_ne (s : Sys τ β) {t u : τ} (hu : u ≠ t) :
    ((s.submit t b write i0 i1 i2).pos u).call = (s.pos u).call := by
  show (update s.pos t _ u).call = _
  rw [update_of_ne hu]

/-- The requests after one was submitted. -/
theorem inFlight_submit (ht : Touched l s s1) {u : τ} {c : β} {j0 j1 j2 : Nat} :
    (s1.submit t b write i0 i1 i2).InFlight u c j0 j1 j2 ↔
      (u = t ∧ c = b ∧ j0 = i0 ∧ j1 = i1 ∧ j2 = i2) ∨ (u ≠ t ∧ s.InFlight u c j0 j1 j2) := by
  unfold Sys.InFlight
  by_cases hu : u = t
  · subst hu
    rw [Sys.submit_call]
    constructor
    · grind
    · rintro (⟨-, rfl, rfl, rfl, rfl⟩ | ⟨hne, -⟩)
      · exact ⟨write, rfl⟩
      · exact absurd rfl hne
  · grind [Sys.submit_call_of_ne, ht.calls]

end requests

variable {s s1 s' : Sys τ β} {t : τ} {b : β} {i0 i1 i2 : Nat} {l : List Nat}

/-- Free descriptors that are free again, and moves that stay within the
calls, do not matter. -/
theorem Owned.touched (hd : Owned s) (ht : Touched l s s')
    (hl : ∀ i ∈ l, s.disk.free i = true ∧ s'.disk.free i = true) : Owned s' := by
  have hout : ∀ u i, i ∈ s.chain u → i ∉ l := fun u i hi hm => hd.not_mem_chain (hl i hm).1 u hi
  refine ⟨fun u c hc => ?_, fun u c j0 j1 j2 hf => ?_, fun u i hi => ?_,
    fun i hi hf => ?_, fun u v i hu hv => ?_⟩
  · rw [ht.bufs.2.1]
    rw [ht.calls] at hc
    exact hd.held u c hc
  · have hold := ht.inFlight.mp hf
    refine (hd.linked u c j0 j1 j2 hold).congr (fun i hi => ?_) (by rw [ht.info])
    rw [← hold.chain] at hi
    exact ht.desc i (hout u i hi)
  · grind [ht.chain, ht.free, hd.taken]
  · have hil : i ∉ l := by
      intro hm
      rw [(hl i hm).2] at hf
      cases hf
    rw [ht.free i hil] at hf
    obtain ⟨u, hu⟩ := hd.owned i hi hf
    exact ⟨u, by rw [ht.chain]; exact hu⟩
  · rw [ht.chain] at hu hv
    exact hd.apart u v i hu hv

theorem Disciplined.touched (hd : Disciplined s) (ht : Touched l s s')
    (hl : ∀ i ∈ l, s.disk.free i = true ∧ s'.disk.free i = true) : Disciplined s' := by
  obtain ⟨hoff, hwork, hfin⟩ := ht.queue
  obtain ⟨hbd, hbl, hdw⟩ := ht.bufs
  have hq : s'.queue = s.queue := by
    unfold Sys.queue
    rw [hoff, hwork, hfin]
  refine ⟨hd.toOwned.touched ht hl, ?_, fun h => ?_, fun r hr => ?_, fun h hh => ?_⟩
  · rw [hq]
    exact hd.once
  · rw [hq, hd.heads, hbd]
    simp only [ht.inFlight]
  · rw [hdw] at hr
    exact hd.work r hr
  · rw [hfin] at hh
    rw [ht.info]
    exact hd.status h hh

/-- The heads of the queue belong to descriptors that are not free. -/
theorem Disciplined.not_mem_queue (hd : Disciplined s) {i : Nat}
    (hi : s.disk.free i = true) : i ∉ s.queue := by
  intro hm
  obtain ⟨u, c, j1, j2, hf, -⟩ := (hd.heads i).mp hm
  exact hd.not_mem_chain hi u hf.head_mem

section submit

variable [DecidableEq τ] [DecidableEq β] {write : Bool}

theorem Owned.submit (hd : Owned s) (hc : (s.pos t).call = some ⟨b, write, .alloc⟩)
    (ha : Alloced s (some (i0, i1, i2)) s1) : Owned (s1.submit t b write i0 i1 i2) := by
  obtain ⟨hnd, hidx, ht⟩ := ha
  have hown : s.block b = some t := hd.held t _ hc
  have hlt : i0 < num ∧ i1 < num ∧ i2 < num :=
    ⟨(hidx i0 (by simp)).1, (hidx i1 (by simp)).1, (hidx i2 (by simp)).1⟩
  have hout : ∀ u i, i ∈ s.chain u → i ∉ [i0, i1, i2] :=
    fun u i hi hm => hd.not_mem_chain (hidx i hm).2.1 u hi
  have hchain : (s1.submit t b write i0 i1 i2).chain t = [i0, i1, i2] :=
    ((inFlight_submit ht).mpr (.inl ⟨rfl, rfl, rfl, rfl, rfl⟩)).chain
  have hchains : ∀ u, u ≠ t → (s1.submit t b write i0 i1 i2).chain u = s.chain u := by
    intro u hu
    unfold Sys.chain
    rw [Sys.submit_call_of_ne _ hu, ht.calls]
  refine ⟨fun u c hu => ?_, fun u c j0 j1 j2 hf => ?_, fun u i hi => ?_,
    fun i hi hf => ?_, fun u v i hu hv => ?_⟩
  · show s1.block c.b = some u
    rw [ht.bufs.2.1]
    by_cases hut : u = t
    · grind [Sys.submit_call]
    · rw [Sys.submit_call_of_ne _ hut, ht.calls] at hu
      exact hd.held u c hu
  · rcases (inFlight_submit ht).mp hf with
      ⟨rfl, rfl, rfl, rfl, rfl⟩ | ⟨hu, hold⟩
    · exact (s1.disk.linked_format c (s1.sector c) write hlt hnd).congr (fun _ _ => rfl) rfl
    · refine (hd.linked u c j0 j1 j2 hold).congr (fun i hi => ?_) ?_
      · rw [← hold.chain] at hi
        have hi := hout u i hi
        exact (s1.disk.format_desc b (s1.sector b) write hi).trans (ht.desc i hi)
      · have hne : j0 ≠ i0 := by
          rintro rfl
          exact hout u j0 hold.head_mem (by simp)
        show (update s1.disk.info i0 _ j0).b = _
        rw [update_of_ne hne, ht.info]
  · by_cases hut : u = t
    · rw [hut, hchain] at hi
      exact (hidx i hi).2.2
    · rw [hchains u hut] at hi
      exact (ht.free i (hout u i hi)).trans (hd.taken u i hi)
  · by_cases him : i ∈ [i0, i1, i2]
    · exact ⟨t, by rw [hchain]; exact him⟩
    · obtain ⟨u, hu⟩ := hd.owned i hi ((ht.free i him).symm.trans hf)
      have hut : u ≠ t := by
        rintro rfl
        unfold Sys.chain at hu
        rw [hc] at hu
        cases hu
      exact ⟨u, by rw [hchains u hut]; exact hu⟩
  · by_cases hut : u = t
    · grind
    · rw [hchains u hut] at hu
      by_cases hvt : v = t
      · rw [hvt, hchain] at hv
        exact absurd hv (hout u i hu)
      · rw [hchains v hvt] at hv
        exact hd.apart u v i hu hv

/-- A submitted head goes to the end of the avail ring. -/
theorem Disciplined.queue_submit (hd : Disciplined s) (t : τ) (b : β)
    (write : Bool) (ha : Alloced s (some (i0, i1, i2)) s1) :
    (s1.submit t b write i0 i1 i2).queue.Perm (i0 :: s.queue) := by
  obtain ⟨-, hidx, ht⟩ := ha
  obtain ⟨hlt, hfree, -⟩ := hidx i0 (by simp)
  obtain ⟨hoff, hwork, hfin⟩ := ht.queue
  have hnew := hd.not_mem_queue hfree
  -- with the new head there are at most `NUM`, so there is room
  have hroom : (i0 :: s.queue).length ≤ num :=
    length_le_of_nodup (List.nodup_cons.mpr ⟨hnew, hd.once⟩) fun i hi => by
      rcases List.mem_cons.mp hi with rfl | hi
      · exact hlt
      · exact hd.queue_lt hi
  have hoffered : (s1.submit t b write i0 i1 i2).offered = s1.offered ++ [i0] := by
    refine between_push _ i0 ?_
    show s1.offered.length < num
    rw [hoff]
    unfold Sys.queue at hroom
    rw [List.length_cons, List.length_append] at hroom
    omega
  show ((s1.submit t b write i0 i1 i2).offered ++ (s1.working ++ s1.finished)).Perm _
  rw [hoffered, hoff, hwork, hfin, List.append_assoc]
  exact List.perm_middle

/-- A call that has its descriptors offers them. -/
theorem Disciplined.submit (hd : Disciplined s) (hc : (s.pos t).call = some ⟨b, write, .alloc⟩)
    (ha : Alloced s (some (i0, i1, i2)) s1) : Disciplined (s1.submit t b write i0 i1 i2) := by
  have hperm := hd.queue_submit t b write ha
  have howned := hd.toOwned.submit hc ha
  obtain ⟨hnd, hidx, ht⟩ := ha
  have hown : s.block b = some t := hd.held t _ hc
  have hnew : i0 ∉ s.queue := hd.not_mem_queue (hidx i0 (by simp)).2.1
  refine ⟨howned, ?_, fun h => ?_, ?_, fun h hh => ?_⟩
  · exact hperm.nodup_iff.mpr (List.nodup_cons.mpr ⟨hnew, hd.once⟩)
  · rw [hperm.mem_iff, List.mem_cons, hd.heads]
    simp only [inFlight_submit ht]
    show _ ↔ ∃ u c j1 j2, _ ∧ update s1.bdisk b true c = true
    rw [ht.bufs.1]
    constructor
    · rintro (rfl | ⟨u, c, j1, j2, hf, hb⟩)
      · exact ⟨t, b, i1, i2, .inl ⟨rfl, rfl, rfl, rfl, rfl⟩, update_self ..⟩
      · have hut : u ≠ t := by
          rintro rfl
          obtain ⟨w, hw⟩ := hf
          rw [hc] at hw
          cases hw
        refine ⟨u, c, j1, j2, .inr ⟨hut, hf⟩, ?_⟩
        by_cases hcb : c = b
        · rw [hcb, update_self]
        · rw [update_of_ne hcb]
          exact hb
    · rintro ⟨u, c, j1, j2, ⟨-, -, rfl, -, -⟩ | ⟨hut, hf⟩, hb⟩
      · exact .inl rfl
      · have hcb : c ≠ b := by
          rintro rfl
          obtain ⟨w, hw⟩ := hf
          have hu : s.block c = some u := hd.held u _ hw
          exact hut (Option.some.inj (hu.symm.trans hown))
        rw [update_of_ne hcb] at hb
        exact .inr ⟨u, c, j1, j2, hf, hb⟩
  · show ∀ r ∈ s1.devWork, r.status = .status r.head
    rw [ht.bufs.2.2]
    exact hd.work
  · have hold : h ∈ s.finished := by
      rw [← ht.queue.2.2]
      exact hh
    have hne : h ≠ i0 := by
      rintro rfl
      exact hnew (List.mem_append_right _ (List.mem_append_right _ hold))
    show (update s1.disk.info i0 _ h).status = 0
    rw [update_of_ne hne, ht.info]
    exact hd.status h hold

end submit

-- ======== retiring

/-- The request of `t` is gone, and its descriptors are free. -/
structure Retired (t : τ) (l : List Nat) (s s' : Sys τ β) : Prop where
  freed : ∀ i ∈ l, s'.disk.free i = true
  free : ∀ i, i ∉ l → s'.disk.free i = s.disk.free i
  desc : ∀ i, i ∉ l → s'.disk.desc i = s.disk.desc i
  info : ∀ i, i ∉ l → s'.disk.info i = s.disk.info i
  gone : (s'.pos t).call = none
  calls : ∀ u, u ≠ t → (s'.pos u).call = (s.pos u).call
  queue : s'.offered = s.offered ∧ s'.working = s.working ∧ s'.finished = s.finished
  bufs : s'.bdisk = s.bdisk ∧ s'.block = s.block ∧ s'.devWork = s.devWork

theorem Retired.inFlight (hr : Retired t l s s') {u : τ} {c : β} {j0 j1 j2 : Nat} :
    s'.InFlight u c j0 j1 j2 ↔ u ≠ t ∧ s.InFlight u c j0 j1 j2 := by
  unfold Sys.InFlight
  by_cases hut : u = t
  · grind [hr.gone]
  · rw [hr.calls u hut]
    exact ⟨fun h => ⟨hut, h⟩, fun h => h.2⟩

theorem Retired.chain (hr : Retired t l s s') {u : τ} {i : Nat} :
    i ∈ s'.chain u ↔ u ≠ t ∧ i ∈ s.chain u := by
  unfold Sys.chain
  by_cases hut : u = t
  · rw [hut, hr.gone]
    exact ⟨fun h => (nomatch h), fun h => absurd rfl h.1⟩
  · rw [hr.calls u hut]
    exact ⟨fun h => ⟨hut, h⟩, fun h => h.2⟩

theorem Owned.retire (hd : Owned s) (hf : s.InFlight t b i0 i1 i2)
    (hr : Retired t [i0, i1, i2] s s') : Owned s' := by
  have hout : ∀ u, u ≠ t → ∀ i ∈ s.chain u, i ∉ [i0, i1, i2] := by
    grind [hf.chain, hd.apart]
  refine ⟨fun u c hc => ?_, fun u c j0 j1 j2 hg => ?_, fun u i hi => ?_,
    fun i hi hfree => ?_, fun u v i hu hv => ?_⟩
  · have hut : u ≠ t := by
      rintro rfl
      rw [hr.gone] at hc
      cases hc
    rw [hr.bufs.2.1]
    rw [hr.calls u hut] at hc
    exact hd.held u c hc
  · obtain ⟨hut, hold⟩ := hr.inFlight.mp hg
    refine (hd.linked u c j0 j1 j2 hold).congr (fun i hi => ?_) ?_
    · rw [← hold.chain] at hi
      exact hr.desc i (hout u hut i hi)
    · rw [hr.info j0 (hout u hut j0 hold.head_mem)]
  · grind [hr.chain, hr.free, hd.taken]
  · have him : i ∉ [i0, i1, i2] := by
      intro hm
      rw [hr.freed i hm] at hfree
      cases hfree
    rw [hr.free i him] at hfree
    obtain ⟨u, hu⟩ := hd.owned i hi hfree
    have hut : u ≠ t := by grind [hf.chain]
    exact ⟨u, hr.chain.mpr ⟨hut, hu⟩⟩
  · exact hd.apart u v i (hr.chain.mp hu).2 (hr.chain.mp hv).2

/-- A call whose request is finished takes its descriptors back. -/
theorem Disciplined.retire (hd : Disciplined s)
    (hf : s.InFlight t b i0 i1 i2) (hb : s.bdisk b = false)
    (hr : Retired t [i0, i1, i2] s s') : Disciplined s' := by
  obtain ⟨hoff, hwork, hfin⟩ := hr.queue
  obtain ⟨hbd, -, hdw⟩ := hr.bufs
  have hq : s'.queue = s.queue := by
    unfold Sys.queue
    rw [hoff, hwork, hfin]
  -- a request that is on its way is another one
  have hother : ∀ {u c j0 j1 j2}, s.InFlight u c j0 j1 j2 → s.bdisk c = true → u ≠ t := by
    rintro u c j0 j1 j2 hg hc rfl
    rw [(hg.unique hf).1, hb] at hc
    cases hc
  refine ⟨hd.toOwned.retire hf hr, ?_, fun h => ?_, fun r hm => ?_, fun h hh => ?_⟩
  · rw [hq]
    exact hd.once
  · rw [hq, hd.heads, hbd]
    constructor
    · rintro ⟨u, c, j1, j2, hg, hc⟩
      exact ⟨u, c, j1, j2, hr.inFlight.mpr ⟨hother hg hc, hg⟩, hc⟩
    · rintro ⟨u, c, j1, j2, hg, hc⟩
      exact ⟨u, c, j1, j2, (hr.inFlight.mp hg).2, hc⟩
  · rw [hdw] at hm
    exact hd.work r hm
  · rw [hfin] at hh
    have hmem : h ∈ s.queue := List.mem_append_right _ (List.mem_append_right _ hh)
    obtain ⟨u, c, j1, j2, hg, hc⟩ := (hd.heads h).mp hmem
    have hni : h ∉ [i0, i1, i2] := by grind [hf.chain, hd.apart, hg.head_mem]
    rw [hr.info h hni]
    exact hd.status h hh

-- ======== the device

/-- What the device and the interrupt handler do not touch. -/
structure Aside (s s' : Sys τ β) : Prop where
  free : s'.disk.free = s.disk.free
  desc : s'.disk.desc = s.disk.desc
  info : ∀ i, (s'.disk.info i).b = (s.disk.info i).b
  block : s'.block = s.block
  calls : ∀ t, (s'.pos t).call = (s.pos t).call

theorem Aside.inFlight (ha : Aside s s') : s'.InFlight t b i0 i1 i2 ↔ s.InFlight t b i0 i1 i2 := by
  unfold Sys.InFlight
  rw [ha.calls t]

theorem Aside.chain (ha : Aside s s') (u : τ) : s'.chain u = s.chain u := by
  unfold Sys.chain
  rw [ha.calls u]

theorem Owned.aside (hd : Owned s) (ha : Aside s s') : Owned s' := by
  refine ⟨fun u c hc => ?_, fun u c j0 j1 j2 hf => ?_, fun u i hi => ?_,
    fun i hi hf => ?_, fun u v i hu hv => ?_⟩
  · rw [ha.block]
    rw [ha.calls] at hc
    exact hd.held u c hc
  · exact (hd.linked u c j0 j1 j2 (ha.inFlight.mp hf)).congr
      (fun i _ => by rw [ha.desc]) (ha.info j0)
  · rw [ha.chain] at hi
    rw [ha.free]
    exact hd.taken u i hi
  · rw [ha.free] at hf
    obtain ⟨u, hu⟩ := hd.owned i hi hf
    exact ⟨u, by rw [ha.chain]; exact hu⟩
  · rw [ha.chain] at hu hv
    exact hd.apart u v i hu hv

/-- The device passes a chain on: the queue has the same heads. -/
theorem Disciplined.pass (hd : Disciplined s) (ha : Aside s s')
    (hq : s'.queue.Perm s.queue) (hbd : s'.bdisk = s.bdisk)
    (hw : ∀ r ∈ s'.devWork, r.status = .status r.head)
    (hs : ∀ h ∈ s'.finished, (s'.disk.info h).status = 0) : Disciplined s' := by
  refine ⟨hd.toOwned.aside ha, hq.nodup_iff.mpr hd.once, fun h => ?_, hw, hs⟩
  rw [hq.mem_iff, hd.heads, hbd]
  simp only [ha.inFlight]

/-- The device finds a chain of three for each head. -/
theorem Disciplined.readChain (hd : Disciplined s) (hf : s.InFlight t b i0 i1 i2) :
    s.disk.readChain i0 = some ⟨i0, .data b, .status i0⟩ := by
  have hl := hd.linked t b i0 i1 i2 hf
  dsimp only [Disk.readChain]
  rw [hl.first.2, hl.second.2]
  rw [if_pos ⟨hl.first.1, hl.second.1, hl.third⟩, hl.data, hl.status]

/-- The first head of the avail ring. -/
theorem Disciplined.next_offered (hd : Disciplined s) (hne : s.devIdx ≠ s.disk.availIdx) :
    ∃ t b i1 i2, s.InFlight t b (s.disk.availRing (s.devIdx.toNat % num)) i1 i2 := by
  have hpop := between_pop s.disk.availRing hne
  have hmem : s.disk.availRing (s.devIdx.toNat % num) ∈ s.queue := by
    refine List.mem_append_left _ ?_
    show _ ∈ between _ _ _
    rw [hpop]
    exact List.mem_cons_self ..
  obtain ⟨t, b, i1, i2, hf, -⟩ := (hd.heads _).mp hmem
  exact ⟨t, b, i1, i2, hf⟩

theorem wpn_devFetch (hd : Disciplined s) :
    wpn (· = Stop.blocked) devFetch (fun _ s' _ => Disciplined s') s := by
  unfold devFetch
  refine wpn.get_bind (wpn.ite (fun _ => wpn.fault rfl) fun hne => ?_)
  obtain ⟨t, b, i1, i2, hf⟩ := hd.next_offered hne
  rw [hd.readChain hf]
  refine wpn.modify (hd.pass ⟨rfl, rfl, fun _ => rfl, rfl, fun _ => rfl⟩ ?_
    rfl (fun r hr => ?_) hd.status)
  · -- the head goes from the front of the ring to the device
    have hpop : s.offered = _ :: between s.disk.availRing (s.devIdx + 1)
        s.disk.availIdx := between_pop s.disk.availRing hne
    unfold Sys.queue
    rw [hpop]
    show (between s.disk.availRing (s.devIdx + 1) s.disk.availIdx
      ++ ((s.devWork ++ [_]).map DevReq.head ++ s.finished)).Perm _
    rw [List.map_append, List.append_assoc, List.cons_append]
    exact (List.Perm.append_left _ List.perm_middle).trans List.perm_middle
  · grind [hd.work, List.mem_singleton]

theorem wpn_devComplete (hd : Disciplined s) (h : Nat) : wpn (· = Stop.blocked) (devComplete h)
      (fun _ s' _ => Disciplined s' ∧ s'.finished = s.finished ++ [h]) s := by
  unfold devComplete
  refine wpn.get_bind ?_
  split
  · exact wpn.fault rfl
  · next r hr =>
    have hmem : r ∈ s.devWork := List.mem_of_find?_eq_some hr
    have hhead : r.head = h := by simpa using List.find?_some hr
    have hstat : r.status = .status h := by rw [hd.work r hmem, hhead]
    obtain ⟨q, l1, l2, -, hq, hsplit, herase⟩ :=
      List.exists_of_eraseP (p := fun r => r.head == h) hmem (by simpa using hhead)
    have hq : q.head = h := by simpa using hq
    have hwork : s.working = l1.map DevReq.head ++ h :: l2.map DevReq.head := by
      unfold Sys.working
      rw [hsplit, List.map_append, List.map_cons, hq]
    -- the head was with the device, so the used ring has room for it
    have hroom : s.finished.length < num := by
      grind [hd.queue_length, Sys.queue, List.length_append, List.length_cons]
    have hfin : between (update s.disk.usedRing
        (s.disk.usedIdx.toNat % num) h) s.disk.seenIdx (s.disk.usedIdx + 1)
        = s.finished ++ [h] := between_push s.disk.usedRing h hroom
    refine wpn.modify ?_
    rw [hstat]
    refine ⟨hd.pass ⟨rfl, rfl, fun i => ?_, rfl, fun _ => rfl⟩ ?_ rfl
      (fun r hr => ?_) (fun i hi => ?_), hfin⟩
    · show (update s.disk.info h _ i).b = _
      by_cases hi : i = h
      · rw [hi, update_self]
      · rw [update_of_ne hi]
    · show (s.offered ++ ((s.devWork.eraseP _).map DevReq.head
        ++ between (update s.disk.usedRing (s.disk.usedIdx.toNat % num) h) s.disk.seenIdx
          (s.disk.usedIdx + 1))).Perm _
      unfold Sys.queue
      rw [hfin, herase, hwork, List.map_append, ← List.append_assoc
        (l1.map DevReq.head ++ l2.map DevReq.head), List.append_assoc
        (l1.map DevReq.head) (h :: l2.map DevReq.head)]
      refine List.Perm.append_left _ ((List.perm_append_singleton ..).trans ?_)
      rw [List.append_assoc]
      exact List.perm_middle.symm
    · exact hd.work r (List.mem_of_mem_eraseP hr)
    · have hi : i ∈ s.finished ++ [h] := by
        rw [← hfin]
        exact hi
      show (update s.disk.info h _ i).status = 0
      by_cases hih : i = h
      · rw [hih, update_self]
      · grind [update_apply, hd.status, List.mem_singleton]

-- ======== the interrupt

/-- The handler clears the flag of the buffer whose request was completed
first, and of no other one. -/
def Cleared [DecidableEq β] (s s' : Sys τ β) : Prop :=
  ∃ t b h i1 i2, s.finished = h :: s'.finished ∧ s.InFlight t b h i1 i2
    ∧ s.bdisk b = true ∧ s'.bdisk = update s.bdisk b false

section interrupt

variable [DecidableEq β]

theorem Disciplined.cleared (hd : Disciplined s) (ha : Aside s s')
    (hoff : s'.offered = s.offered) (hw : s'.devWork = s.devWork)
    (hst : ∀ i, (s'.disk.info i).status = (s.disk.info i).status)
    (hc : Cleared s s') : Disciplined s' := by
  obtain ⟨t, b, h, i1, i2, hfin, hf, -, hbd⟩ := hc
  have hperm : s.queue.Perm (h :: s'.queue) := by
    grind [Sys.queue, Sys.working, List.Perm.append_left, List.perm_middle]
  have hnd := hperm.nodup_iff.mp hd.once
  refine ⟨hd.toOwned.aside ha, (List.nodup_cons.mp hnd).2, fun i => ?_, ?_, fun i hi => ?_⟩
  · rw [hbd]
    simp only [ha.inFlight]
    constructor
    · intro hi
      obtain ⟨u, c, j1, j2, hg, hc⟩ :=
        (hd.heads i).mp (hperm.mem_iff.mpr (List.mem_cons_of_mem h hi))
      have hcb : c ≠ b := by grind [hd.same_buf, hg.unique, List.nodup_cons]
      exact ⟨u, c, j1, j2, hg, by rw [update_of_ne hcb]; exact hc⟩
    · grind [update_apply, hd.heads, hperm.mem_iff, hd.same_head]
  · rw [hw]
    exact hd.work
  · grind [hd.status, List.mem_cons_of_mem]

/-- A round of the handler can only fail for want of the lock, and clears
a flag if there is a completion it has not seen. -/
theorem wpn_intrRound [DecidableEq τ] {E : Stop → Prop} (hd : Disciplined s)
    (hE : s.lock ≠ some .intr → E .blocked) : wpn E intrRound (fun _ s' _ => Disciplined s'
      ∧ (s.disk.seenIdx ≠ s.disk.usedIdx → Cleared s s')) s := by
  unfold intrRound
  refine wpn.get_bind (wpn.ite (fun hlock => wpn.fault (hE hlock)) fun _ =>
    wpn.ite (fun hne => ?_) fun heq => wpn.modify ⟨?_, ?_⟩)
  · have hfin : s.finished = s.disk.usedRing (s.disk.seenIdx.toNat % num)
        :: between s.disk.usedRing (s.disk.seenIdx + 1) s.disk.usedIdx :=
      between_pop s.disk.usedRing hne
    revert hfin
    generalize s.disk.usedRing (s.disk.seenIdx.toNat % num) = h
    intro hfin
    have hmem : h ∈ s.finished := by
      rw [hfin]
      exact List.mem_cons_self ..
    obtain ⟨t, b, i1, i2, hf, hb⟩ := (hd.heads h).mp
      (List.mem_append_right _ (List.mem_append_right _ hmem))
    rw [if_neg (not_not.mpr (hd.status h hmem)), (hd.linked t b h _ _ hf).info]
    refine wpn.modify_bind (wpn.modify_bind (wpn.modify ?_))
    refine ⟨hd.cleared ⟨rfl, rfl, fun _ => rfl, rfl,
      fun u => (s.pos u).call_woken (.buf b)⟩ rfl rfl (fun _ => rfl) ?_, fun _ => ?_⟩
    · exact ⟨t, b, h, i1, i2, hfin, hf, hb, rfl⟩
    · exact ⟨t, b, h, i1, i2, hfin, hf, hb, rfl⟩
  · exact hd.touched (l := []) ⟨fun _ _ => rfl, fun _ _ => rfl, rfl, fun _ => rfl⟩ fun _ => nofun
  · exact fun hne => absurd hne heq

end interrupt

-- ======== the threads

section threads

variable [DecidableEq τ] [DecidableEq β] {E : Stop → Prop} {write : Bool}

omit [DecidableEq β] in
/-- Going to sleep, waking and waiting for the lock stay within a call. -/
theorem Disciplined.moved {a : Pos β} {k : Option (Holder τ)}
    (hd : Disciplined s) (ha : a.call = (s.pos t).call) :
    Disciplined { s with pos := update s.pos t a, lock := k } := by
  refine hd.touched (l := []) ⟨fun _ _ => rfl, fun _ _ => rfl, rfl, fun u => ?_⟩ fun _ => nofun
  show (update s.pos t a u).call = _
  by_cases hu : u = t
  · rw [hu, update_self, ha]
  · rw [update_of_ne hu]

variable (hd : Disciplined s)

include hd

theorem wpn_rwAlloc (hc : (s.pos t).call = some ⟨b, write, .alloc⟩) :
    wpn E (rwAlloc t b write) (fun _ s' _ => Disciplined s') s := by
  unfold rwAlloc
  refine (wpn_alloc3Desc s).bind fun r s1 _ h => ?_
  match r with
  | none =>
    obtain ⟨l, ht, hl⟩ := h
    exact wpn.modify ((hd.touched ht hl).moved ((ht.calls t).trans hc).symm)
  | some (i0, i1, i2) => exact wpn.modify (hd.submit hc h)

theorem wpn_rwWait (hc : (s.pos t).call = some ⟨b, write, .wait i0 i1 i2⟩) :
    wpn E (rwWait t b write i0 i1 i2) (fun _ s' _ => Disciplined s') s := by
  have hf : s.InFlight t b i0 i1 i2 := ⟨write, hc⟩
  have hl := hd.linked t b i0 i1 i2 hf
  unfold rwWait
  refine wpn.get_bind (wpn.ite (fun _ => wpn.modify (hd.moved hc.symm)) fun hb => ?_)
  refine wpn.modify_bind (wpn.bind (wpn_freeChain (l := [i1, i2])
    (show 2 < num + 1 by decide) (fun j hj => ?_) hl.nodup
    (hl.chained.congr fun _ _ => rfl) fun j hj => ?_) fun _ s2 _ h2 => wpn.modify ?_)
  · simp only [List.mem_cons, List.not_mem_nil, or_false] at hj
    rcases hj with rfl | rfl | rfl
    · exact hl.lt.1
    · exact hl.lt.2.1
    · exact hl.lt.2.2
  · rw [← hf.chain] at hj
    exact hd.taken t j hj
  · obtain ⟨hfreed, ht⟩ := h2
    refine hd.retire hf (by simpa using hb) ⟨hfreed, ht.free, ht.desc,
      fun j hj => ?_, ?_, fun u hu => ?_, ht.queue, ht.bufs⟩
    · show s2.disk.info j = _
      rw [ht.info]
      exact update_of_ne (fun he => hj (by simp [he])) ..
    · show (update s2.pos t .idle t).call = none
      rw [update_self]
      rfl
    · grind [update_apply, ht.calls]

theorem wpn_rwRound : wpn (· = Stop.blocked) (rwRound t) (fun _ s' _ => Disciplined s') s := by
  unfold rwRound
  refine wpn.get_bind ?_
  split
  · next hpos => exact wpn_rwAlloc hd (by rw [hpos]; rfl)
  · next hpos => exact wpn_rwWait hd (by rw [hpos]; rfl)
  · exact wpn.fault rfl

omit [DecidableEq τ] [DecidableEq β] in
/-- The requests stay, and the sleep locks still belong to the callers. -/
theorem Disciplined.relocked (hdisk : s'.disk = s.disk) (hbd : s'.bdisk = s.bdisk)
    (hdev : s'.devIdx = s.devIdx ∧ s'.devWork = s.devWork)
    (hreq : ∀ {u c j0 j1 j2}, s'.InFlight u c j0 j1 j2 ↔ s.InFlight u c j0 j1 j2)
    (hchain : ∀ u, s'.chain u = s.chain u)
    (hheld : ∀ u c, (s'.pos u).call = some c → s'.block c.b = some u) : Disciplined s' := by
  have hq : s'.queue = s.queue := by
    unfold Sys.queue Sys.offered Sys.working Sys.finished
    rw [hdisk, hdev.1, hdev.2]
  have hfin : s'.finished = s.finished := by
    unfold Sys.finished
    rw [hdisk]
  refine ⟨⟨hheld, fun u c j0 j1 j2 hf => ?_, fun u i hi => ?_,
    fun i hi hf => ?_, fun u v i hu hv => ?_⟩, ?_, fun h => ?_, ?_, ?_⟩
  · rw [hdisk]
    exact hd.linked u c j0 j1 j2 (hreq.mp hf)
  · grind [hd.taken]
  · grind [hd.owned]
  · rw [hchain] at hu hv
    exact hd.apart u v i hu hv
  · rw [hq]
    exact hd.once
  · rw [hq, hd.heads, hbd]
    simp only [hreq]
  · rw [hdev.2]
    exact hd.work
  · rw [hfin, hdisk]
    exact hd.status

omit [DecidableEq β] in
/-- A thread that was in no call begins one, which has no descriptors. -/
theorem Disciplined.begin (hidle : (s.pos t).call = none)
    (hb : s.block b = some t) : Disciplined { s with
      pos := update s.pos t (.outside ⟨b, write, .alloc⟩) } := by
  have hcall : ∀ u, u ≠ t → (update s.pos t (.outside ⟨b, write, .alloc⟩) u).call
        = (s.pos u).call := by
    intro u hu
    rw [update_of_ne hu]
  have hnew : (update s.pos t (.outside ⟨b, write, .alloc⟩) t).call = some ⟨b, write, .alloc⟩ := by
    rw [update_self]
    rfl
  refine hd.relocked rfl rfl ⟨rfl, rfl⟩ ?_ (fun u => ?_) fun u c hc => ?_
  · grind [Sys.InFlight]
  · unfold Sys.chain
    by_cases hu : u = t
    · rw [hu, hnew, hidle]
      rfl
    · rw [hcall u hu]
  · grind [hd.held]

/-- Every step that is possible keeps the discipline, and no step ends in a
panic. -/
theorem wpn_op (o : Op τ β) : wpn (· = Stop.blocked) o.prog (fun _ s' _ => Disciplined s') s := by
  cases o with
  | acquiresleep t b =>
    refine wpn.get_bind ?_
    split
    · next hidle hnone =>
      refine wpn.modify (hd.relocked rfl rfl ⟨rfl, rfl⟩ Iff.rfl (fun _ => rfl) fun u c hc => ?_)
      have hu : s.block c.b = some u := hd.held u c hc
      have hne : c.b ≠ b := by grind
      exact (update_of_ne hne ..).trans hu
    · exact wpn.fault rfl
  | releasesleep t b =>
    refine wpn.get_bind ?_
    split
    · next hidle =>
      refine wpn.ite (fun hb => wpn.modify (hd.relocked rfl rfl ⟨rfl, rfl⟩
        Iff.rfl (fun _ => rfl) fun u c hc => ?_)) fun _ => wpn.fault rfl
      have hu : s.block c.b = some u := hd.held u c hc
      -- the thread that gives the lock back is in no call
      have hne : c.b ≠ b := by
        rintro he
        rw [he, hb] at hu
        cases hu
        have hc : (s.pos t).call = some c := hc
        rw [hidle] at hc
        cases hc
      exact (update_of_ne hne ..).trans hu
    · exact wpn.fault rfl
  | rw t b write =>
    refine wpn.get_bind ?_
    split
    · next hidle =>
      refine wpn.ite (fun hb => ?_) fun _ => wpn.fault rfl
      exact wpn.modify (hd.begin (by rw [hidle]; rfl) hb)
    · exact wpn.fault rfl
  | acquire t =>
    refine wpn.get_bind ?_
    split
    · next c hpos hlock => exact wpn.modify (hd.moved (by rw [hpos]; rfl))
    · exact wpn.fault rfl
  | round t => exact wpn_rwRound hd
  | rouse t =>
    refine wpn.modify (hd.moved ?_)
    cases s.pos t <;> rfl
  | intr =>
    refine wpn.get_bind (wpn.ite (fun _ => wpn.modify ?_) fun _ => wpn.fault rfl)
    exact hd.touched (l := []) ⟨fun _ _ => rfl, fun _ _ => rfl, rfl, fun _ => rfl⟩ fun _ => nofun
  | intrRound => exact (wpn_intrRound (E := (· = .blocked)) hd fun _ => rfl).mono fun _ _ _ h => h.1
  | devFetch => exact wpn_devFetch hd
  | devComplete h => exact (wpn_devComplete hd h).mono fun _ _ _ h => h.1

end threads

-- ======== the system

theorem Fresh.disciplined (h : Fresh s) : Disciplined s := by
  have hcall : ∀ t, (s.pos t).call = none := by
    intro t
    rw [h.pos t]
    rfl
  have hchain : ∀ t, s.chain t = [] := by
    intro t
    unfold Sys.chain
    rw [hcall t]
  have hfin : s.finished = [] := by
    unfold Sys.finished
    rw [h.seenIdx]
    exact between_self ..
  have hq : s.queue = [] := by
    unfold Sys.queue Sys.offered Sys.working
    rw [h.devIdx, between_self, h.devWork, hfin]
    rfl
  refine ⟨⟨fun t c hc => ?_, fun t b i0 i1 i2 ⟨w, hc⟩ => ?_, fun t i hi => ?_,
    fun i hi hf => ?_, fun t u i ht => ?_⟩, ?_, fun i => ?_, fun r hr => ?_, fun i hi => ?_⟩
  · rw [hcall] at hc
    cases hc
  · rw [hcall] at hc
    cases hc
  · rw [hchain] at hi
    cases hi
  · rw [h.free i hi] at hf
    cases hf
  · rw [hchain] at ht
    cases ht
  · rw [hq]
    exact List.nodup_nil
  · rw [hq]
    constructor
    · exact fun hm => nomatch hm
    · rintro ⟨t, b, i1, i2, ⟨w, hc⟩, -⟩
      rw [hcall] at hc
      cases hc
  · rw [h.devWork] at hr
    cases hr
  · rw [hfin] at hi
    cases hi

section runs

variable [DecidableEq τ] [DecidableEq β]

theorem Runs.disciplined {n : Notes Empty (Sys τ β)} (h : Runs n s) : Disciplined s := by
  induction h with
  | init hs => exact hs.disciplined
  | step o _ hrun _ ih => exact (wpn_op ih o).ok hrun

/-- In every state of every run: a descriptor is free or in the chain of
exactly one request; the chain of a request is three descriptors, linked
for its buffer; a step is possible or not, but never panics; a completion
goes behind those that the driver has not seen, and with the lock held by
the handler and a completion to see, its round returns and clears the flag
of the buffer the first one was for and of no other one. -/
theorem virtio_descriptors {n : Notes Empty (Sys τ β)} (h : Runs n s) :
    (∀ i < num, (s.disk.free i = true ∧ ∀ t, i ∉ s.chain t)
        ∨ (s.disk.free i = false ∧ ∃! t, i ∈ s.chain t))
      ∧ (∀ t b i0 i1 i2, s.InFlight t b i0 i1 i2 → [i0, i1, i2].Nodup
        ∧ s.disk.readChain i0 = some ⟨i0, .data b, .status i0⟩)
      ∧ (∀ (o : Op τ β) e, o.prog s = .error e → e = .blocked)
      ∧ (∀ i s' m, (Op.devComplete i).prog s = .ok ((), s', m) → s'.finished = s.finished ++ [i])
      ∧ (s.lock = some .intr → s.finished ≠ [] →
        ∃ s' m, Op.intrRound.prog s = .ok ((), s', m) ∧ Cleared s s') := by
  have hd := h.disciplined
  refine ⟨fun i hi => ?_, fun t b i0 i1 i2 hf => ?_, fun o e he => ?_,
    fun i s' m hrun => ?_, fun hlock hne => ?_⟩
  · cases hf : s.disk.free i with
    | true => exact .inl ⟨rfl, hd.not_mem_chain hf⟩
    | false =>
      obtain ⟨t, ht⟩ := hd.owned i hi hf
      exact .inr ⟨rfl, t, ht, fun u hu => hd.apart u t i hu ht⟩
  · exact ⟨(hd.linked t b i0 i1 i2 hf).nodup, hd.readChain hf⟩
  · exact (wpn_op hd o).error he
  · exact ((wpn_devComplete hd i).ok hrun).2
  · obtain ⟨⟨⟩, s', m, hrun, -, hcleared⟩ := (wpn_intrRound hd fun hno => hno hlock).total
    refine ⟨s', m, hrun, hcleared fun heq => hne ?_⟩
    unfold Sys.finished
    rw [heq]
    exact between_self ..

end runs

/-- A disk that has been in use for some time. -/
def idleDisk : Sys Nat Nat :=
  { disk :=
      { desc := fun _ => ⟨.null, 0, 0, 0⟩, availIdx := 0xFFFF
        availRing := fun _ => 0, usedIdx := 0xFFFF, usedRing := fun _ => 0
        free := fun _ => true, seenIdx := 0xFFFF
        info := fun _ => ⟨none, 0⟩, ops := fun _ => ⟨0, 0, 0⟩ }
    bdisk := fun _ => false, blockno := fun _ => 0, block := fun _ => none
    lock := none, pos := fun _ => .idle, devIdx := 0xFFFF, devWork := [] }

/-- Three threads, of which the third finds too few descriptors; the second
request is completed before the first one, and the handler takes the
lock. -/
def threeCalls : List (Op Nat Nat) :=
  [.acquiresleep 0 10, .rw 0 10 true, .acquire 0, .round 0, .round 0,
    .acquiresleep 1 11, .rw 1 11 false, .acquire 1, .round 1, .round 1,
    .acquiresleep 2 12, .rw 2 12 false, .acquire 2, .round 2,
    .devFetch, .devFetch, .devComplete 3, .intr]

/-- The flags of the first two buffers after another round of the
handler. -/
def nextFlags (s : Sys Nat Nat) : Option (Bool × Bool) :=
  (Op.intrRound.prog s).toOption.map fun x => (x.2.1.bdisk 10, x.2.1.bdisk 11)

theorem virtio_descriptors_three : ∃ (n : Notes Empty (Sys Nat Nat)) (s : Sys Nat Nat), Runs n s
      ∧ s.disk.availIdx = 1 ∧ (∀ t, 6 ∉ s.chain t) ∧ (∃! t, 3 ∈ s.chain t) ∧ s.bdisk 11 = true
      ∧ ∃ s' m, Op.intrRound.prog s = .ok ((), s', m) ∧ Cleared s s'
        ∧ s'.bdisk 10 = true ∧ s'.bdisk 11 = false := by
  have hfresh : Runs [] idleDisk :=
    .init ⟨fun _ _ => rfl, rfl, rfl, rfl, fun _ => rfl, fun _ => rfl, rfl⟩
  obtain ⟨n, s, hr, hidx, h6, h3, hlock, hfin, hset, hflags⟩ := hfresh.played (P := fun _ s =>
    s.disk.availIdx = 1 ∧ s.disk.free 6 = true ∧ s.disk.free 3 = false ∧ s.lock = some .intr
      ∧ s.finished ≠ [] ∧ s.bdisk 11 = true ∧ nextFlags s = some (true, false))
    (fun _ _ _ _ _ => trivial) threeCalls (by decide +kernel)
  obtain ⟨hown, -, -, -, hround⟩ := virtio_descriptors hr
  obtain ⟨s', m, hrun, hcleared⟩ := hround hlock hfin
  unfold nextFlags at hflags
  rw [hrun] at hflags
  have hpair := Prod.mk.inj (Option.some.inj hflags)
  refine ⟨n, s, hr, hidx, ?_, ?_, hset, s', m, hrun, hcleared, hpair.1, hpair.2⟩
  · rcases hown 6 (by decide) with ⟨-, hnone⟩ | ⟨hf, -⟩
    · exact hnone
    · rw [h6] at hf
      cases hf
  · rcases hown 3 (by decide) with ⟨hf, -⟩ | ⟨-, hone⟩
    · rw [h3] at hf
      cases hf
    · exact hone

end Virtio

end GemOS
