/-
Splitting a path (`skipelem`).

`skipelemAt` works on memory: a cursor into NUL-terminated bytes and a
buffer for the element. Called until it returns 0 it goes through the
elements of the string, the pieces between the slashes that are not
empty, and leaves the cursor at the end of the string exactly with the
last of them. `skipelem`, which the name space is built on, is the same
function on strings (`skipelemAt_cstr`).
-/
import Mathlib.Data.List.DropRight
import Mathlib.Data.List.TakeWhile
import GemOS.Kernel.Namespace

namespace GemOS

namespace Vfs

/-- The string some memory starts with. -/
def cstr (mem : List UInt8) : Path := mem.takeWhile (· != 0)

/-- The pieces of a path between slashes, without the empty ones. -/
def elements (path : Path) : List Path := (path.splitOn slash).filter (· ≠ [])

-- ======== the elements of a string

theorem elements_slash (path : Path) : elements (slash :: path) = elements path := by
  simp [elements, List.splitOn, List.splitOnP_cons_eq_if_modifyHead]

theorem elements_dropWhile (path : Path) :
    elements (path.dropWhile (· == slash)) = elements path := by
  induction path with
  | nil => rfl
  | cons b path ih =>
    by_cases hb : b = slash
    · subst hb
      rw [elements_slash, ← ih]
      simp
    · simp [hb]

/-- A path that does not start with a slash starts with an element. -/
theorem elements_head {path : Path} (hne : path.takeWhile (· != slash) ≠ []) : elements path
      = path.takeWhile (· != slash) :: elements (path.dropWhile (· != slash)) := by
  have hclean : ∀ c ∈ path.takeWhile (· != slash), (c == slash) = false := fun c hc => by
    simpa using List.mem_takeWhile_imp hc
  have hsep := List.head?_dropWhile_not (· != slash) path
  have hparts := List.takeWhile_append_dropWhile (p := (· != slash)) (l := path)
  generalize path.takeWhile (· != slash) = elem at *
  generalize path.dropWhile (· != slash) = rest at *
  subst hparts
  cases rest with
  | nil => simp [elements, List.splitOn, List.splitOnP_eq_singleton hclean, hne]
  | cons c rest =>
    obtain rfl : c = slash := by simpa using hsep
    rw [elements_slash]
    simp [elements, List.splitOn, List.splitOnP_append_cons_of_forall_mem hclean, hne]

/-- Only slashes have no elements. -/
theorem elements_eq_nil {path : Path} : elements path = [] ↔ path.dropWhile (· == slash) = [] := by
  rw [← elements_dropWhile]
  have hfirst := List.head?_dropWhile_not (· == slash) path
  cases hrest : path.dropWhile (· == slash) with
  | nil => simp [elements]
  | cons c rest =>
    rw [hrest] at hfirst
    have hc : c ≠ slash := by simpa using hfirst
    have hne : (c :: rest).takeWhile (· != slash) ≠ [] := by simp [hc]
    simp [elements_head hne]

-- ======== strings in memory

/-- Skipping bytes that are not NUL stays in the string. -/
theorem cstr_dropWhile {p : UInt8 → Bool} (hp : p 0 = false) (mem : List UInt8) :
    cstr (mem.dropWhile p) = (cstr mem).dropWhile p := by
  induction mem with
  | nil => rfl
  | cons b mem ih =>
    by_cases hb : p b = true
    · have hne : b ≠ 0 := by
        rintro rfl
        simp [hp] at hb
      simpa [cstr, hb, hne] using ih
    · rw [List.dropWhile_cons_of_neg hb]
      by_cases hz : b = 0 <;> simp [cstr, hb, hz]

theorem cstr_ne_zero {mem : List UInt8} {b : UInt8} (hb : b ∈ cstr mem) : b ≠ 0 := by
  simpa using List.mem_takeWhile_imp hb

/-- In a string the NUL need not be looked for. -/
theorem takeWhile_cstr (mem : List UInt8) :
    mem.takeWhile (fun b => b != slash && b != 0) = (cstr mem).takeWhile (· != slash) := by
  simp [cstr, List.takeWhile_takeWhile, bne, Bool.beq_eq_decide_eq]

/-- What a call skips, on the string. -/
theorem cstr_skip (mem : List UInt8) : cstr (((mem.dropWhile (· == slash)).dropWhile
        fun b => b != slash && b != 0).dropWhile (· == slash))
      = (((cstr mem).dropWhile (· == slash)).dropWhile (· != slash)).dropWhile (· == slash) := by
  have hnul : ∀ l : Path, (∀ b ∈ l, b ≠ 0) →
      l.dropWhile (fun b => b != slash && b != 0) = l.dropWhile (· != slash) := by
    intro l hl
    induction l with
    | nil => rfl
    | cons b l ih => simp_all [List.dropWhile_cons]
  rw [cstr_dropWhile (by decide), cstr_dropWhile (by decide), hnul _ fun _ => cstr_ne_zero,
    cstr_dropWhile (by decide)]

-- ======== one call

/-- The element is in the buffer: `DIRSIZ` bytes of it, or all of it and
a NUL. What follows the buffer is as before. -/
structure Stored (name elem buf : List UInt8) : Prop where
  bytes : elem.take dirsiz <+: buf
  nul : elem.length < dirsiz → buf[elem.length]? = some 0
  rest : buf.drop dirsiz = name.drop dirsiz

theorem storeName_stored (name elem : List UInt8) : Stored name elem (storeName name elem) := by
  unfold storeName
  by_cases hlen : dirsiz ≤ elem.length
  · rw [if_pos hlen]
    refine ⟨List.prefix_append .., fun h => absurd hlen (Nat.not_le.mpr h), ?_⟩
    simp [hlen]
  · rw [if_neg hlen]
    refine ⟨?_, fun _ => by simp, ?_⟩
    · rw [List.take_of_length_le (Nat.le_of_not_le hlen)]
      exact List.prefix_append ..
    · obtain ⟨k, hk⟩ : ∃ k, dirsiz = elem.length + (k + 1) := ⟨dirsiz - elem.length - 1, by omega⟩
      simp [hk, List.drop_append, Nat.add_assoc, Nat.add_comm 1 k]

/-- The buffer, read as a name. -/
theorem storeName_cstr (name : List UInt8) {elem : Path} (h : ∀ b ∈ elem, b ≠ 0) :
    (cstr (storeName name elem)).take dirsiz = elem.take dirsiz := by
  unfold storeName cstr
  by_cases hlen : dirsiz ≤ elem.length
  · rw [if_pos hlen, List.takeWhile_append_of_pos]
    · simp [hlen]
    · exact fun b hb => by simpa using h b (List.mem_of_mem_take hb)
  · rw [if_neg hlen, List.takeWhile_append_of_pos fun b hb => by simpa using h b hb]
    simp

variable {path name rest buf : List UInt8}

/-- A call, seen on the string behind its leading slashes. -/
theorem skipelemAt_eq : skipelemAt path name = if (cstr path).dropWhile (· == slash) = [] then none
      else some (((path.dropWhile (· == slash)).dropWhile
          fun b => b != slash && b != 0).dropWhile (· == slash),
        storeName name (((cstr path).dropWhile (· == slash)).takeWhile (· != slash))) := by
  rw [← cstr_dropWhile (by decide), ← takeWhile_cstr]
  have hend : ∀ mem : List UInt8, mem.headD 0 = 0 ↔ cstr mem = [] := by
    intro mem
    cases mem <;> simp [cstr]
  simp only [skipelemAt, hend]

theorem skipelemAt_none (h : skipelemAt path name = none) : elements (cstr path) = [] := by
  rw [skipelemAt_eq] at h
  rw [elements_eq_nil]
  simpa using h

theorem skipelemAt_some (h : skipelemAt path name = some (rest, buf)) :
    ∃ elem, buf = storeName name elem ∧ elements (cstr path) = elem :: elements (cstr rest)
      ∧ (elements (cstr rest) = [] ↔ cstr rest = []) ∧ rest.length < path.length := by
  rw [skipelemAt_eq] at h
  simp only [Option.ite_none_left_eq_some, Option.some.injEq, Prod.mk.injEq] at h
  obtain ⟨hne, rfl, rfl⟩ := h
  -- behind the slashes stands a byte of the element
  obtain ⟨b, more, hpath, hb, hz⟩ : ∃ b more, path.dropWhile (· == slash) = b :: more
      ∧ b ≠ slash ∧ b ≠ 0 := by
    rw [← cstr_dropWhile (by decide)] at hne
    have hfirst := List.head?_dropWhile_not (· == slash) path
    cases hpath : path.dropWhile (· == slash) with
    | nil => simp [hpath, cstr] at hne
    | cons b more =>
      exact ⟨b, more, rfl, by simpa [hpath] using hfirst, by simpa [hpath, cstr] using hne⟩
  refine ⟨_, rfl, ?_, ?_, ?_⟩
  · rw [cstr_skip, elements_dropWhile, ← elements_head, elements_dropWhile]
    rw [← cstr_dropWhile (by decide), hpath]
    simp [cstr, hb, hz]
  · rw [elements_eq_nil, cstr_dropWhile (by decide), List.dropWhile_idempotent]
  · have hshort := (List.dropWhile_suffix (· == slash) (l := path)).length_le
    rw [hpath] at hshort ⊢
    have hskip := (List.dropWhile_suffix (· == slash)
      (l := more.dropWhile fun b => b != slash && b != 0)).length_le
    have htail := (List.dropWhile_suffix (fun b => b != slash && b != 0) (l := more)).length_le
    rw [List.dropWhile_cons_of_pos (by simp [hb, hz])]
    rw [List.length_cons] at hshort
    omega

/-- On strings, this is the `skipelem` that paths are looked up with. -/
theorem skipelemAt_cstr : (skipelemAt path name).map (fun r => (cstr r.1, (cstr r.2).take dirsiz))
      = skipelem (cstr path) := by
  rw [skipelemAt_eq]
  simp only [skipelem, List.isEmpty_iff]
  by_cases hne : (cstr path).dropWhile (· == slash) = []
  · simp [hne]
  · rw [if_neg hne, if_neg hne, Option.map_some]
    rw [cstr_skip, storeName_cstr _ fun b hb => cstr_ne_zero
      ((List.dropWhile_suffix _).subset ((List.takeWhile_prefix _).subset hb))]

-- ======== all calls

/-- `skipelem` until it returns 0: what each call returns and leaves in
the buffer. -/
def skipelems (path name : List UInt8) : List (List UInt8 × List UInt8) :=
  match _h : skipelemAt path name with
  | none => []
  | some r => r :: skipelems r.1 r.2
termination_by path.length
decreasing_by
  obtain ⟨_, -, -, -, hlt⟩ := skipelemAt_some _h
  exact hlt

theorem skipelems_stored (path name : List UInt8) : List.Forall₂
    (fun elem r => Stored name elem r.2) (elements (cstr path)) (skipelems path name) := by
  fun_induction skipelems path name with
  | case1 path name h => rw [skipelemAt_none h]; exact .nil
  | case2 path name r h ih =>
    obtain ⟨elem, hbuf, helems, -⟩ := skipelemAt_some h
    have hstored := storeName_stored name elem
    rw [← hbuf] at hstored
    rw [helems]
    refine .cons hstored (ih.imp fun _ _ h => ?_)
    exact ⟨h.bytes, h.nul, h.rest.trans hstored.rest⟩

theorem skipelems_last (path name : List UInt8) : ∀ k r, (skipelems path name)[k]? = some r →
    (cstr r.1 = [] ↔ k + 1 = (elements (cstr path)).length) := by
  fun_induction skipelems path name with
  | case1 path name h => simp
  | case2 path name r h ih =>
    obtain ⟨elem, -, helems, hend, -⟩ := skipelemAt_some h
    intro k r' hr
    rw [helems, List.length_cons, Nat.add_right_cancel_iff]
    cases k with
    | zero =>
      simp only [List.getElem?_cons_zero, Option.some.injEq] at hr
      rw [← hr, ← hend, ← List.length_eq_zero_iff, eq_comm]
    | succ k => exact ih k r' hr

/-- The calls of `skipelem` on a path go through its elements, each is
stored, and the rest of the path is empty with the last. On strings the
function is the one `namex` calls. -/
theorem skipelem_splits (path name : List UInt8) :
    List.Forall₂ (fun elem r => Stored name elem r.2) (elements (cstr path)) (skipelems path name)
      ∧ (∀ k r, (skipelems path name)[k]? = some r →
          (cstr r.1 = [] ↔ k + 1 = (elements (cstr path)).length))
      ∧ (skipelemAt path name).map (fun r => (cstr r.1, (cstr r.2).take dirsiz))
          = skipelem (cstr path) :=
  ⟨skipelems_stored path name, skipelems_last path name, skipelemAt_cstr⟩

end Vfs

end GemOS
