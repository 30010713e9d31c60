/-
Page tables as words in memory (`vm.c`, with the macros of `riscv.h`).

`Kernel.Vm` names the entries of a table by the address bits that lead to
them. Here a table is what it is on the machine: pages of 512 words each,
linked through the words, with nothing to keep two tables apart but the
addresses `kalloc` returns. A pointer to a PTE is a page and an index.

The allocator is left open. `env` says, call by call, what `kalloc`
returns, and `junk` what is in a page it hands out or takes back. Every
use of a page leaves a note, so that a run can be required to get only
pages that are not in use (`Spare`).
-/
import GemOS.Lib.Radix
import GemOS.Kernel.Vm

namespace GemOS.Sv39

open Function Prog

/-- The words of all pages, and the page table under consideration. -/
structure Mem where
  root : Nat
  word : Nat → Nat → Nat
  env : Nat → Option Nat
  junk : Nat → Nat → Nat
  calls : Nat
  kend : Nat

/-- A page is handed out, given back, or written by its user. -/
inductive Use
  | alloc (p : Nat)
  | free (p : Nat)
  | store (p : Nat)

abbrev M : Type → Type := Prog Mem String Use

def panic {α : Type} (msg : String) : M α := fault msg

/-- `*pte = w`. -/
def Mem.set (s : Mem) (p i w : Nat) : Mem :=
  { s with word := update s.word p (update (s.word p) i w) }

/-- All words of a page are overwritten. -/
def Mem.setPage (s : Mem) (p : Nat) (f : Nat → Nat) : Mem :=
  { s with word := update s.word p f }

def kalloc : M (Option Nat) := do
  let s ← get
  modify fun s => { s with calls := s.calls + 1 }
  match s.env s.calls with
  | none => return none
  | some p =>
    note (.alloc p)
    modify fun s => s.setPage p (s.junk s.calls)
    return some p

def kfree (p : Nat) : M Unit := do
  let s ← get
  if p % pgsize ≠ 0 ∨ p < s.kend ∨ phystop ≤ p then panic "kfree"
  else
    note (.free p)
    modify fun s =>
      { s.setPage p (s.junk s.calls) with calls := s.calls + 1 }

-- ======== walk

/-- `PX(level, va)`. -/
def px (level va : Nat) : Nat := (va >>> (12 + 9 * level)) &&& 0x1FF

/-- The loop of `walk` from `level` down. -/
def walkLevel (va : Nat) (alloc : Bool) : Nat → Nat → M (Option (Nat × Nat))
  | 0, pagetable => return some (pagetable, px 0 va)
  | level + 1, pagetable => do
    let s ← get
    let i := px (level + 1) va
    let pte := s.word pagetable i
    if isV pte then walkLevel va alloc level (pte2pa pte)
    else if !alloc then return none
    else
      match ← kalloc with
      | none => return none
      | some p =>
        modify fun s =>
          (s.setPage p fun _ => 0).set pagetable i (pa2pte p ||| pteV)
        walkLevel va alloc level p

def walk (va : Nat) (alloc : Bool) : M (Option (Nat × Nat)) := do
  let s ← get
  if maxva ≤ va then panic "walk" else walkLevel va alloc 2 s.root

-- ======== the calls

/-- The loop of `mappages`, by the pages still to map. -/
def mappagesLoop (perm : Nat) : Nat → Nat → Nat → M Int
  | 0, _, _ => return 0
  | n + 1, a, pa => do
    match ← walk a true with
    | none => return -1
    | some (p, i) =>
      let s ← get
      if isV (s.word p i) then panic "mappages: remap"
      else
        modify fun s => s.set p i (pa2pte pa ||| perm ||| pteV)
        mappagesLoop perm n (a + pgsize) ((pa + pgsize) % 2 ^ 64)

def mappages (va size pa perm : Nat) : M Int := do
  if va % pgsize ≠ 0 then panic "mappages: va not aligned"
  else if size % pgsize ≠ 0 then panic "mappages: size not aligned"
  else if size = 0 then panic "mappages: size"
  else mappagesLoop perm (size / pgsize) va pa

/-- One round of `uvmunmap`. -/
def uvmunmapPage (a : Nat) (doFree : Bool) : M Unit := do
  match ← walk a false with
  | none => return ()
  | some (p, i) =>
    let s ← get
    if isV (s.word p i) then
      if doFree then kfree (pte2pa (s.word p i)) else pure ()
      modify fun s => s.set p i 0
    else return ()

def uvmunmapLoop (doFree : Bool) : Nat → Nat → M Unit
  | 0, _ => return ()
  | n + 1, a => do
    uvmunmapPage a doFree
    uvmunmapLoop doFree n (a + pgsize)

/-- How many pages `uvmunmap` looks at; the bound is computed in 64
bits. -/
def unmapCount (va npages : Nat) : Nat :=
  ((va + npages * pgsize) % 2 ^ 64 - va) / pgsize

def uvmunmap (va npages : Nat) (doFree : Bool) : M Unit := do
  if va % pgsize ≠ 0 then panic "uvmunmap: not aligned"
  else uvmunmapLoop doFree (unmapCount va npages) va

-- ======== the runs

inductive Op
  | mappages (va size pa perm : Nat)
  | uvmunmap (va npages : Nat) (doFree : Bool)
  /-- The user of a page writes to it. -/
  | store (p : Nat) (f : Nat → Nat)

/-- A call and what it returns; a call without a result counts as
returning 0. -/
def Op.prog : Op → M Int
  | .mappages va size pa perm => Sv39.mappages va size pa perm
  | .uvmunmap va npages doFree => do
    Sv39.uvmunmap va npages doFree
    return 0
  | .store p f => do
    note (.store p)
    modify fun s => s.setPage p f
    return 0

/-- What the call interface carries: a page-aligned address below
`MAXVA`, 64-bit sizes and addresses, and permissions that are flags. -/
def Op.Fits : Op → Prop
  | .mappages va size pa perm =>
    va % pgsize = 0 ∧ va < maxva ∧ size < 2 ^ 64 ∧ pa < 2 ^ 64 ∧ perm < 2 ^ 10
  | .uvmunmap va npages _ => va % pgsize = 0 ∧ va < maxva ∧ npages < 2 ^ 64
  | .store _ _ => True

/-- A word as a link to a table. -/
def link (w : Nat) : Option Nat := if isV w then some (pte2pa w) else none

/-- The page is one of the table. -/
abbrev Mem.Table (s : Mem) (p : Nat) : Prop := IsTable link s.word s.root 2 p

/-- Pages that are handed out are pages and not in use, and neither are
those that are given back or written. -/
def Spare : Use → Mem → Prop
  | .alloc p, s => p % pgsize = 0 ∧ p < 2 ^ 64 ∧ ¬ s.Table p
  | .free p, s => ¬ s.Table p
  | .store p, s => ¬ s.Table p

/-- The calls made from a zeroed root, with their results, lead to this
memory. -/
inductive Runs : List (Op × Int) → Mem → Prop
  | init {s : Mem} : (∀ i, s.word s.root i = 0) → Runs [] s
  | step {h : List (Op × Int)} {s s' : Mem} {r : Int} {t : Notes Use Mem}
      (o : Op) : Runs h s → o.Fits → o.prog s = .ok (r, s', t) →
      (∀ m ∈ t, Spare m.1 m.2) → Runs (h ++ [(o, r)]) s'

-- ======== the abstraction

/-- From page numbers to page addresses and flags. -/
abbrev PageMap : Type := Nat → Option (Nat × Nat)

/-- The `k` pages from `v` on are mapped to those from `pa` on. -/
def PageMap.mapped (m : PageMap) (v k pa perm : Nat) : PageMap := fun u =>
  if v ≤ u ∧ u < v + k then
    some ((pa + (u - v) * pgsize) % 2 ^ 64 / pgsize * pgsize, perm ||| pteV)
  else m u

/-- The `k` pages from `v` on are not mapped. -/
def PageMap.cleared (m : PageMap) (v k : Nat) : PageMap := fun u =>
  if v ≤ u ∧ u < v + k then none else m u

/-- What a call does to the map. A `mappages` that fails has mapped the
pages before the one it failed at. -/
def Op.Abs : Op → Int → PageMap → PageMap → Prop
  | .mappages va size pa perm, r, m, m' =>
    ∃ k, (r = 0 ∧ k = size / pgsize ∨ r = -1 ∧ k < size / pgsize)
      ∧ (∀ u, va / pgsize ≤ u → u < va / pgsize + k → m u = none)
      ∧ m' = m.mapped (va / pgsize) k pa perm
  | .uvmunmap va npages _, _, m, m' =>
    m' = m.cleared (va / pgsize) (unmapCount va npages)
  | .store _ _, _, m, m' => m' = m

/-- The maps that calls with these results can lead to. -/
inductive AbsRuns : List (Op × Int) → PageMap → Prop
  | init : AbsRuns [] fun _ => none
  | step {h : List (Op × Int)} {m m' : PageMap} {r : Int} (o : Op) :
      AbsRuns h m → o.Abs r m m' → AbsRuns (h ++ [(o, r)]) m'

/-- The PTE that `walk(va, 0)` finds, if there is one. -/
def Mem.found (s : Mem) (va : Nat) : Option Nat :=
  match walk va false s with
  | .ok (some (p, i), _, _) => some (s.word p i)
  | _ => none

/-- The pages mapped in a range can be given back: the allocator takes
them, and they are not pages of the table. -/
def Mem.Returnable (s : Mem) (m : PageMap) (v k : Nat) : Prop :=
  ∀ u pa flags, v ≤ u → u < v + k → m u = some (pa, flags) →
    s.kend ≤ pa ∧ pa < phystop ∧ ¬ s.Table pa

/-- The PTE of every page shows the entry of the map: a mapped page has a
valid PTE with the address and the flags, and an unmapped one has none or
a zero one. -/
def Refines (s : Mem) (m : PageMap) : Prop :=
  ∀ v, v < maxva / pgsize →
    match m v with
    | some (pa, flags) => ∃ w, s.found (v * pgsize) = some w ∧ isV w = true
        ∧ pte2pa w = pa ∧ pteFlags w = flags
    | none => s.found (v * pgsize) = none ∨ s.found (v * pgsize) = some 0

end GemOS.Sv39
