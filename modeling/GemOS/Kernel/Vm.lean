/-
Page tables (`vm.c`): `walk` and what is built on it.

`walk` returns the address of a PTE. In the model that address is the
pair of the table and the page number, so `walk` only says whether the
PTE exists, creating interior tables on the way when asked to; reads and
writes then go through `Kernel.pte` and `Kernel.setLeaf`. A table that
is not live has nothing behind its address: walking it is a wild access.

Loops over pages run on a count of pages, the bound the source computes.
-/
import GemOS.Kernel.Kalloc

namespace GemOS

open Function Prog

-- ======== walk

/-- A zeroed level-1 table at page `pa`, linked under entry `i` of the
root. -/
def PageTable.linkDir (t : PageTable) (i pa : Nat) : PageTable :=
  { t with
    dir := update t.dir i (some pa)
    mid_of_dir := by
      intro j hj
      by_cases hij : j >>> 9 = i
      · rw [hij, update_self] at hj
        cases hj
      · rw [update_of_ne hij] at hj
        exact t.mid_of_dir j hj }

/-- A zeroed level-0 table at page `pa`, linked under level-1 entry `j`;
nothing happens when there is no level-1 table to link it into. -/
def PageTable.linkMid (t : PageTable) (j pa : Nat) : PageTable :=
  if hdir : t.dir (j >>> 9) = none then t
  else
    { t with
      mid := update t.mid j (some pa)
      mid_of_dir := by
        intro k hk
        by_cases hkj : k = j
        · exact absurd (hkj ▸ hk) hdir
        · rw [update_of_ne hkj]
          exact t.mid_of_dir k hk
      leaf_of_mid := by
        intro v hv
        by_cases hvj : v >>> 9 = j
        · rw [hvj, update_self] at hv
          cases hv
        · rw [update_of_ne hvj] at hv
          exact t.leaf_of_mid v hv }

/-- A store to the PTE of page number `v`; only the level-0 tables that
exist can be written. -/
def PageTable.setLeaf (t : PageTable) (v w : Nat) : PageTable :=
  if hmid : t.mid (v >>> 9) = none then t
  else
    { t with
      leaf := update t.leaf v w
      leaf_of_mid := by
        intro k hk
        by_cases hkv : k = v
        · exact absurd (hkv ▸ hk) hmid
        · rw [update_of_ne hkv]
          exact t.leaf_of_mid k hk }

/-- Replace the table at `root`. -/
def Kernel.setTable (s : Kernel) (root : Nat) (t : PageTable) : Kernel :=
  { s with pagetables := update s.pagetables root t }

/-- `memset(pa, c, PGSIZE)`. -/
def Kernel.memset (s : Kernel) (pa : Nat) (c : UInt8) : Kernel :=
  { s with mem := update s.mem pa (fill c) }

/-- `*pte = w`. -/
def Kernel.setLeaf (s : Kernel) (root va w : Nat) : Kernel :=
  s.setTable root ((s.pagetables root).setLeaf (va >>> 12) w)

/-- One round of `walk`'s loop: `entry` reads the PTE of the level, `link`
stores a fresh table in it. -/
def walkLevel (root : Nat) (entry : PageTable → Option Nat) (link : PageTable → Nat → PageTable)
    (alloc : Bool) : K Bool := do
  let s ← get
  if (entry (s.pagetables root)).isSome then return true
  else if !alloc then return false
  else
    match ← kalloc with
    | none => return false
    | some pa =>
      modify fun s => (s.memset pa 0).setTable root (link (s.pagetables root) pa)
      return true

/-- The level-2 round. -/
def walkDir (root i : Nat) (alloc : Bool) : K Bool :=
  walkLevel root (·.dir i) (·.linkDir i) alloc

/-- The level-1 round. -/
def walkMid (root j : Nat) (alloc : Bool) : K Bool :=
  walkLevel root (·.mid j) (·.linkMid j) alloc

def walk (root va : Nat) (alloc : Bool) : K Bool := do
  if maxva ≤ va then panic "walk"
  else
    let s ← get
    if (s.pagetables root).live then
      if ← walkDir root (va >>> 30) alloc then walkMid root (va >>> 21) alloc
      else return false
    else fault .wild

/-- `walkaddr`: zero when the page is not mapped for the user. -/
def walkaddr (root va : Nat) : K Nat := do
  if maxva ≤ va then return 0
  else if ← walk root va false then
    let s ← get
    let pte := s.pte root va
    if isV pte ∧ isU pte then return pte2pa pte else return 0
  else return 0

def ismapped (root va : Nat) : K Bool := do
  if ← walk root va false then
    let s ← get
    return isV (s.pte root va)
  else return false

-- ======== mappages

/-- The loop of `mappages`, by the pages still to map. -/
def mappagesLoop (root perm : Nat) : Nat → Nat → Nat → K Int
  | 0, _, _ => return 0
  | n + 1, a, pa => do
    if ← walk root a true then
      let s ← get
      if isV (s.pte root a) then panic "mappages: remap"
      else
        note (.map root a)
        modify fun s => s.setLeaf root a (pa2pte pa ||| perm ||| pteV)
        mappagesLoop root perm n (a + pgsize) (pa + pgsize)
    else return -1

def mappages (root va size pa perm : Nat) : K Int := do
  if va % pgsize ≠ 0 then panic "mappages: va not aligned"
  else if size % pgsize ≠ 0 then panic "mappages: size not aligned"
  else if size = 0 then panic "mappages: size"
  else mappagesLoop root perm (size / pgsize) va pa

-- ======== user page tables

/-- A table with no entries. -/
def PageTable.empty : PageTable :=
  { live := true
    dir := fun _ => none
    mid := fun _ => none
    leaf := fun _ => 0
    mid_of_dir := fun _ _ => rfl
    leaf_of_mid := fun _ _ => rfl }

/-- A freed table. -/
def PageTable.dead : PageTable := { PageTable.empty with live := false }

def uvmcreate : K (Option Nat) := do
  match ← kalloc with
  | none => return none
  | some root =>
    modify fun s => (s.memset root 0).setTable root .empty
    return some root

/-- One round of `uvmunmap`. -/
def uvmunmapPage (root a : Nat) (doFree : Bool) : K Unit := do
  if ← walk root a false then
    let s ← get
    let pte := s.pte root a
    if isV pte then
      note (.unmap root a)
      if doFree then kfree (pte2pa pte) else pure ()
      modify fun s => s.setLeaf root a 0
    else return ()
  else return ()

def uvmunmapLoop (root : Nat) (doFree : Bool) : Nat → Nat → K Unit
  | 0, _ => return ()
  | n + 1, a => do
    uvmunmapPage root a doFree
    uvmunmapLoop root doFree n (a + pgsize)

/-- The bound `va + npages*PGSIZE` is computed in 64 bits. -/
def uvmunmap (root va npages : Nat) (doFree : Bool) : K Unit := do
  if va % pgsize ≠ 0 then panic "uvmunmap: not aligned"
  else
    uvmunmapLoop root doFree (((va + npages * pgsize) % 2 ^ 64 - va) / pgsize) va

/-- A page count kept in an `int` and passed on as a `uint64`. -/
def countArg (n : Nat) : Nat := ((Int.bmod n (2 ^ 32)) % 2 ^ 64).toNat

def uvmdealloc (root oldsz newsz : Nat) : K Nat := do
  if oldsz ≤ newsz then return oldsz
  else if pgroundup newsz < pgroundup oldsz then
    uvmunmap root (pgroundup newsz) (countArg ((pgroundup oldsz - pgroundup newsz) / pgsize)) true
    return newsz
  else return newsz

/-- The loop of `uvmalloc` from page `a` on; `oldsz` is already rounded
up. -/
def uvmallocLoop (root oldsz newsz xperm : Nat) : Nat → Nat → K Nat
  | 0, _ => return newsz
  | n + 1, a => do
    if a < newsz then
      match ← kalloc with
      | none =>
        let _ ← uvmdealloc root a oldsz
        return 0
      | some mem =>
        modify fun s => s.memset mem 0
        if (← mappages root a pgsize mem (pteR ||| pteU ||| xperm)) ≠ 0 then
          kfree mem
          let _ ← uvmdealloc root a oldsz
          return 0
        else uvmallocLoop root oldsz newsz xperm n (a + pgsize)
    else return newsz

def uvmalloc (root oldsz newsz xperm : Nat) : K Nat := do
  if newsz < oldsz then return oldsz
  else
    let old := pgroundup oldsz
    uvmallocLoop root old newsz xperm ((newsz - old) / pgsize + 1) old

-- ======== freewalk

/-- The pages of a table, in the order `freewalk` frees them: children
before their parent, the root last. -/
def PageTable.pages (t : PageTable) (root : Nat) : List Nat :=
  ((List.range 512).flatMap fun i =>
    match t.dir i with
    | none => []
    | some l1 =>
      ((List.range 512).filterMap fun j => t.mid (i * 512 + j)) ++ [l1])
  ++ [root]

/-- Some leaf reachable through the interior tables satisfies `f`. -/
def PageTable.anyLeaf (t : PageTable) (f : Nat → Bool) : Bool :=
  (List.range 512).any fun i => (t.dir i).isSome &&
    (List.range 512).any fun j => (t.mid (i * 512 + j)).isSome &&
      (List.range 512).any fun k => f (t.leaf ((i * 512 + j) * 512 + k))

def kfreeAll : List Nat → K Unit
  | [] => return ()
  | pa :: rest => do
    kfree pa
    kfreeAll rest

/-- `freewalk`. The source checks and frees entry by entry; the checks
come first here, since a panic ends the run wherever it strikes. A valid
leaf without `R`, `W` or `X` would be followed as if it were a table. -/
def freewalk (root : Nat) : K Unit := do
  let s ← get
  let t := s.pagetables root
  if !t.live then fault .wild
  else if t.anyLeaf fun w => isV w && w &&& (pteR ||| pteW ||| pteX) != 0 then
    panic "freewalk: leaf"
  else if t.anyLeaf isV then fault .wild
  else
    kfreeAll (t.pages root)
    modify fun s => s.setTable root .dead

def uvmfree (root sz : Nat) : K Unit := do
  if sz > 0 then uvmunmap root 0 (pgroundup sz / pgsize) true else pure ()
  freewalk root

-- ======== uvmcopy

/-- `memmove(dst, src, PGSIZE)` between two pages. -/
def Kernel.copyPage (s : Kernel) (dst src : Nat) : Kernel :=
  { s with mem := update s.mem dst (s.mem src) }

/-- The loop of `uvmcopy` from page `i` on. -/
def uvmcopyLoop (old new : Nat) : Nat → Nat → K Int
  | 0, _ => return 0
  | n + 1, i => do
    if ← walk old i false then
      let s ← get
      let pte := s.pte old i
      if isV pte then
        match ← kalloc with
        | none =>
          uvmunmap new 0 (i / pgsize) true
          return -1
        | some mem =>
          modify fun s => s.copyPage mem (pte2pa pte)
          if (← mappages new i pgsize mem (pteFlags pte)) ≠ 0 then
            kfree mem
            uvmunmap new 0 (i / pgsize) true
            return -1
          else uvmcopyLoop old new n (i + pgsize)
      else uvmcopyLoop old new n (i + pgsize)
    else uvmcopyLoop old new n (i + pgsize)

def uvmcopy (old new sz : Nat) : K Int :=
  uvmcopyLoop old new ((sz + (pgsize - 1)) / pgsize) 0

/-- `uvmclear`: the guard page loses `PTE_U`. -/
def uvmclear (root va : Nat) : K Unit := do
  if ← walk root va false then
    modify fun s => s.setLeaf root va (clearFlag (s.pte root va) pteU)
  else panic "uvmclear"

end GemOS
