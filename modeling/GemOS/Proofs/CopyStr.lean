/-
`copyinstr` against `copyin`: what the two make of the same user memory.

# The string in a state

While its pages are there, copying in changes nothing, so a string is a
function of the state: `readStr` reads it byte by byte through
`walkaddr`. `copyinstr` is that function, page by page.

# Where they part

`copyin` asks `vmfault` for a page that is not there, and `copyinstr`
does not. A page that was never touched holds zeros once it is there, so
`copyin` gets an empty string from it and `copyinstr` an error.
-/
import GemOS.Kernel.Proc
import GemOS.Proofs.SwapTrip

namespace GemOS

open Prog

variable {s s' : Kernel} {root va pa srcva max n : Nat} {me : ProcId}
  {r : Option (List UInt8)} {t : List (Mark × Kernel)}

-- ======== looking at a page

/-- What `walkaddr` answers. -/
def Kernel.userPage (s : Kernel) (root va : Nat) : Nat :=
  if va < maxva ∧ isV (s.pte root va) ∧ isU (s.pte root va) then
    pte2pa (s.pte root va)
  else 0

theorem walkaddr_run (hlive : (s.pagetables root).live = true) (va : Nat) :
    walkaddr root va s = .ok (s.userPage root va, s, []) := by
  unfold walkaddr Kernel.userPage
  by_cases hva : va < maxva
  · rw [if_neg (Nat.not_le.mpr hva), bind_run_quiet (walk_look_run hva hlive)]
    cases hmid : (s.pagetables root).mid (va >>> 21) with
    | none =>
      have hnot : ¬ (va < maxva ∧ isV 0 = true ∧ isU 0 = true) := fun h => absurd h.2.1 (by decide)
      rw [pte_of_mid_none hmid, if_neg hnot]
      rfl
    | some pa =>
      simp only [Option.isSome_some, if_true, get_bind_run, hva, true_and]
      split <;> rfl
  · rw [if_pos (Nat.not_lt.mp hva), if_neg fun h => hva h.1]
    rfl

-- ======== the string in a state

/-- The byte at a user address, if its page is there. -/
def Kernel.userByte (s : Kernel) (root va : Nat) : Option UInt8 :=
  let pa := s.userPage root (pgrounddown va)
  if pa = 0 then none
  else some (s.mem pa ⟨va % pgsize, Nat.mod_lt _ (by decide)⟩)

/-- The string at `va`, with its NUL, in at most `max` bytes. -/
def Kernel.readStr (s : Kernel) (root : Nat) : Nat → Nat → Option (List UInt8)
  | 0, _ => none
  | max + 1, va =>
    match s.userByte root va with
    | none => none
    | some b =>
      if b = 0 then some [0]
      else (s.readStr root max ((va + 1) % 2 ^ 64)).map (b :: ·)

theorem userPage_lt (h : s.userPage root va ≠ 0) : va < maxva := by
  unfold Kernel.userPage at h
  split at h
  · next hin => exact hin.1
  · exact absurd rfl h

theorem pgrounddown_add {va0 off : Nat} (halign : va0 % pgsize = 0) (hoff : off < pgsize) :
    pgrounddown (va0 + off) = va0 ∧ (va0 + off) % pgsize = off := by
  unfold pgrounddown
  simp only [pgsize] at *
  omega

theorem readBytes_cons {off : Nat} (s : Kernel) (pa n : Nat) (hoff : off < pgsize) :
    s.readBytes pa off (n + 1) = s.mem pa ⟨off, hoff⟩ :: s.readBytes pa (off + 1) n := by
  simp only [Kernel.readBytes, List.range_succ_eq_map, List.map_cons,
    List.map_map, Nat.add_zero, hoff, dif_pos]
  congr 1
  refine List.map_congr_left fun i _ => ?_
  simp only [Function.comp, Nat.succ_eq_add_one, Nat.add_right_comm off i 1, ← Nat.add_assoc]

/-- The string on one page: it ends there, or goes on behind it. -/
theorem readStr_page {va0 : Nat} (halign : va0 % pgsize = 0)
    (hpage : s.userPage root va0 ≠ 0) (n : Nat) :
    ∀ off max, off + n ≤ pgsize → n ≤ max → s.readStr root max (va0 + off)
        = if (copyToNul (s.readBytes (s.userPage root va0) off n)).2 then
            some (copyToNul (s.readBytes (s.userPage root va0) off n)).1
          else (s.readStr root (max - n) (va0 + off + n)).map
            ((copyToNul (s.readBytes (s.userPage root va0) off n)).1 ++ ·) := by
  have hlt := userPage_lt hpage
  induction n with
  | zero =>
    intro off max _ _
    simp [Kernel.readBytes, copyToNul]
  | succ n ih =>
    intro off max hoff hmax
    obtain ⟨m, rfl⟩ : ∃ m, max = m + 1 := ⟨max - 1, by omega⟩
    have hin : off < pgsize := by omega
    obtain ⟨hdown, hmod⟩ := pgrounddown_add halign hin
    have hbyte : s.userByte root (va0 + off) = some (s.mem (s.userPage root va0) ⟨off, hin⟩) := by
      simp only [Kernel.userByte, hdown, hpage, if_false, hmod]
    have hnext : (va0 + off + 1) % 2 ^ 64 = va0 + (off + 1) := by
      simp only [maxva, pgsize] at *
      omega
    rw [readBytes_cons s _ n hin]
    simp only [Kernel.readStr, hbyte, copyToNul]
    by_cases hzero : s.mem (s.userPage root va0) ⟨off, hin⟩ = 0
    · simp [hzero]
    · simp only [hzero, if_false]
      rw [hnext, ih (off + 1) m (by omega) (by omega)]
      split
      · rfl
      · rw [Option.map_map, Nat.add_sub_add_right,
          show va0 + (off + 1) + n = va0 + off + (n + 1) by omega]
        rfl

theorem exists_offset (va : Nat) : ∃ va0 off, va = va0 + off ∧ va0 % pgsize = 0 ∧ off < pgsize := by
  refine ⟨pgrounddown va, va % pgsize, ?_, Nat.mul_mod_left .., Nat.mod_lt _ (by decide)⟩
  rw [pgrounddown, Nat.mul_comm]
  exact (Nat.div_add_mod va pgsize).symm

/-- `copyinstr` reads the string of the state, and leaves the state. -/
theorem copyinstrLoop_run (hlive : (s.pagetables root).live = true)
    (fuel : Nat) : ∀ srcva max, max ≤ fuel → copyinstrLoop root fuel srcva max s
        = .ok (s.readStr root max srcva, s, []) := by
  induction fuel with
  | zero =>
    intro srcva max hmax
    obtain rfl : max = 0 := by omega
    rfl
  | succ fuel ih =>
    intro srcva max hmax
    obtain ⟨va0, off, rfl, halign, hoff⟩ := exists_offset srcva
    obtain ⟨hdown, hmod⟩ := pgrounddown_add halign hoff
    unfold copyinstrLoop
    by_cases hzero : max = 0
    · subst hzero
      rfl
    rw [if_neg hzero]
    simp only [hdown, Nat.add_sub_cancel_left]
    rw [bind_run_quiet (walkaddr_run hlive _)]
    by_cases hpage : s.userPage root va0 = 0
    · obtain ⟨m, rfl⟩ : ∃ m, max = m + 1 := ⟨max - 1, by omega⟩
      rw [if_pos hpage]
      simp only [Kernel.readStr, Kernel.userByte, hdown, hpage, if_true]
      rfl
    rw [if_neg hpage, get_bind_run]
    have hlt := userPage_lt hpage
    have hn : 0 < min (pgsize - off) max := by omega
    rw [readStr_page halign hpage (min (pgsize - off) max) off max (by omega) (by omega)]
    split
    · rfl
    · rw [bind_run_quiet (ih _ _ (by omega))]
      -- the next page, unless `max` is used up
      have hnext : s.readStr root (max - min (pgsize - off) max) ((va0 + pgsize) % 2 ^ 64)
          = s.readStr root (max - min (pgsize - off) max) (va0 + off + min (pgsize - off) max) := by
        rcases Nat.le_total (pgsize - off) max with hle | hle
        · have haddr : (va0 + pgsize) % 2 ^ 64 = va0 + off + (pgsize - off) := by
            simp only [maxva, pgsize] at *
            omega
          rw [Nat.min_eq_left hle, haddr]
        · simp only [Nat.min_eq_right hle, Nat.sub_self, Kernel.readStr]
      rw [hnext]
      cases s.readStr root (max - min (pgsize - off) max)
        (va0 + off + min (pgsize - off) max) <;> rfl

theorem copyinstr_run (hlive : (s.pagetables root).live = true) (srcva max : Nat) :
    copyinstr root srcva max s = .ok (s.readStr root max srcva, s, []) :=
  copyinstrLoop_run hlive max srcva max le_rfl

-- ======== byte by byte

/-- Copying a string in with one `copyin` for each byte. -/
def copyinBytes (me : ProcId) (root : Nat) : Nat → Nat → K (Option (List UInt8))
  | 0, _ => return none
  | max + 1, srcva => do
    match ← copyin me root srcva 1 with
    | some [b] =>
      if b = 0 then return some [0]
      else
        match ← copyinBytes me root max ((srcva + 1) % 2 ^ 64) with
        | none => return none
        | some rest => return some (b :: rest)
    | _ => return none

/-- `copyin` of a byte whose page is there. -/
theorem copyin_byte {b : UInt8} (hlive : (s.pagetables root).live = true)
    (hb : s.userByte root srcva = some b) : copyin me root srcva 1 s = .ok (some [b], s, []) := by
  obtain ⟨va0, off, rfl, halign, hoff⟩ := exists_offset srcva
  obtain ⟨hdown, hmod⟩ := pgrounddown_add halign hoff
  simp only [Kernel.userByte, hdown, hmod] at hb
  split at hb
  · cases hb
  next hpage =>
  cases hb
  unfold copyin copyinLoop
  rw [if_neg (by decide)]
  simp only [hdown, Nat.add_sub_cancel_left]
  have hstay : (pure (s.userPage root va0) : K Nat) s = .ok (s.userPage root va0, s, []) := rfl
  have hend : ∀ va len, copyinLoop me root 0 va len s = .ok (some [], s, []) := fun _ _ => rfl
  rw [bind_run_quiet (walkaddr_run hlive _), if_neg hpage,
    bind_run_quiet hstay, if_neg hpage, get_bind_run,
    bind_run_quiet (hend _ _), Nat.min_eq_right (by omega), readBytes_cons s _ 0 hoff]
  rfl

/-- A string that was copied in has at least its NUL. -/
theorem copyinBytes_ne_nil {bytes : List UInt8}
    (h : copyinBytes me root max srcva s = .ok (some bytes, s', t)) : bytes ≠ [] := by
  cases max with
  | zero => cases h
  | succ max =>
    obtain ⟨o, s1, t1, t2, -, hrest, rfl⟩ := bind_ok h
    split at hrest
    · split at hrest
      · cases hrest
        exact List.cons_ne_nil _ _
      · obtain ⟨o', s2, t3, t4, -, hret, rfl⟩ := bind_ok hrest
        cases o' with
        | none => cases hret
        | some rest =>
          cases hret
          exact List.cons_ne_nil _ _
    · cases hrest

/-- Byte by byte against the string of the state: what the state has is
what is copied in, and what is copied in is in the state exactly when
its pages are. -/
theorem copyinBytes_readStr (hlive : (s.pagetables root).live = true)
    (max : Nat) : ∀ {srcva r s' t}, copyinBytes me root max srcva s = .ok (r, s', t) →
      (∀ bytes, s.readStr root max srcva = some bytes → r = some bytes)
      ∧ ∀ bytes, r = some bytes → (s.readStr root max srcva = some bytes ↔ ∀ j < bytes.length,
            s.userPage root (pgrounddown (srcva + j)) ≠ 0) := by
  induction max with
  | zero =>
    intro srcva r s' t h
    cases h
    exact ⟨nofun, nofun⟩
  | succ max ih =>
    intro srcva r s' t h
    cases hbyte : s.userByte root srcva with
    | none =>
      have hstr : s.readStr root (max + 1) srcva = none := by
        simp only [Kernel.readStr, hbyte]
      have hpage : s.userPage root (pgrounddown srcva) = 0 := by
        unfold Kernel.userByte at hbyte
        by_contra hne
        simp only [hne, if_false] at hbyte
        cases hbyte
      rw [hstr]
      refine ⟨nofun, fun bytes hr => ⟨nofun, fun hall => ?_⟩⟩
      subst hr
      have hlen := List.length_pos_iff.mpr (copyinBytes_ne_nil h)
      exact absurd hpage (hall 0 hlen)
    | some b =>
      have hpage : s.userPage root (pgrounddown srcva) ≠ 0 := by
        intro hzero
        simp only [Kernel.userByte, hzero, if_true] at hbyte
        cases hbyte
      unfold copyinBytes at h
      rw [bind_run_quiet (copyin_byte hlive hbyte)] at h
      simp only [Kernel.readStr, hbyte]
      by_cases hb : b = 0
      · -- the NUL
        simp only [hb, if_true] at h ⊢
        cases h
        refine ⟨fun _ hr => hr, fun bytes hr => ?_⟩
        cases hr
        refine ⟨fun _ j hj => ?_, fun _ => rfl⟩
        obtain rfl : j = 0 := Nat.lt_one_iff.mp hj
        exact hpage
      · simp only [hb, if_false] at h ⊢
        obtain ⟨o, s1, t1, t2, hrec, hret, rfl⟩ := bind_ok h
        obtain ⟨hsame, hiff⟩ := ih hrec
        have hnext : (srcva + 1) % 2 ^ 64 = srcva + 1 := by
          have hlt := userPage_lt hpage
          have hdown := Nat.div_add_mod srcva pgsize
          unfold pgrounddown at hlt
          simp only [maxva, pgsize] at *
          omega
        rw [hnext] at hsame hiff ⊢
        cases o with
        | none =>
          cases hret
          refine ⟨fun bytes hstr => ?_, nofun⟩
          obtain ⟨rest, hrest, -⟩ := Option.map_eq_some_iff.mp hstr
          cases hsame rest hrest
        | some rest =>
          cases hret
          refine ⟨fun bytes hstr => ?_, fun bytes hr => ?_⟩
          · obtain ⟨rest', hrest, rfl⟩ := Option.map_eq_some_iff.mp hstr
            cases hsame rest' hrest
            rfl
          · cases hr
            have hcons : (s.readStr root max (srcva + 1)).map (b :: ·) = some (b :: rest)
                ↔ s.readStr root max (srcva + 1) = some rest := by
              rw [Option.map_eq_some_iff]
              simp
            rw [hcons, hiff rest rfl, List.length_cons, Nat.forall_lt_succ_left]
            simp only [Nat.add_zero, hpage, ne_eq, not_false_eq_true,
              true_and, Nat.add_assoc, Nat.add_comm 1]

/-- `copyinstr` gives what copying byte by byte gives exactly when every
page of the string that was copied was there at the beginning; an error
it always shares. -/
theorem copyinstr_agrees_iff (s s' : Kernel) (me : ProcId)
    (root srcva max : Nat) (r : Option (List UInt8))
    (t : List (Mark × Kernel)) (hlive : (s.pagetables root).live = true)
    (h : copyinBytes me root max srcva s = .ok (r, s', t)) :
    copyinstr root srcva max s = .ok (r, s, []) ↔ ∀ bytes, r = some bytes → ∀ j < bytes.length,
        s.userPage root (pgrounddown (srcva + j)) ≠ 0 := by
  obtain ⟨hsame, hiff⟩ := copyinBytes_readStr hlive max h
  have hrun : copyinstr root srcva max s = .ok (r, s, []) ↔ s.readStr root max srcva = r := by
    rw [copyinstr_run hlive]
    simp
  rw [hrun]
  constructor
  · intro hstr bytes hr
    exact (hiff bytes hr).mp (hstr.trans hr)
  · intro hpages
    cases r with
    | some bytes => exact (hiff bytes rfl).mpr (hpages bytes rfl)
    | none =>
      cases hstr : s.readStr root max srcva with
      | none => rfl
      | some bytes => cases hsame bytes hstr

set_option maxRecDepth 20000 in
/-- Two fives and a NUL on a page that is there. -/
theorem copyinstr_agrees_five : let s := onePage (Function.update (fill 5) 2 0) (pteR ||| pteU)
    copyinstr 0x80021000 0x1000 16 s = .ok (some [5, 5, 0], s, []) := by
  refine (copyinstr_agrees_iff _ _ 0 0x80021000 0x1000 16 _ _ rfl rfl).mpr ?_
  rintro bytes ⟨⟩
  decide

set_option maxRecDepth 20000 in
/-- A page below `p->sz` that was never touched: `copyin` gets the empty
string, `copyinstr` fails. -/
theorem copyinstr_misses_lazy :
    (∃ s' t, copyinBytes 0 0x80021000 16 0 fives = .ok (some [0], s', t))
      ∧ copyinstr 0x80021000 0 16 fives = .ok (none, fives, []) :=
  ⟨⟨_, _, rfl⟩, rfl⟩

end GemOS
