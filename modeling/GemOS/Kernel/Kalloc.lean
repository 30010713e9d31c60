/-
The physical page allocator (`kalloc.c`): a LIFO list of free pages.

`kfree` fills the page with ones and links it in front; `kalloc` pops
the front page and fills it with fives. Both fills are visible to
whoever is handed the page next, so the model keeps them. Before each
`kalloc` the rest of the kernel gets its turn on the list
(`interfere`).
-/
import GemOS.Kernel.State

namespace GemOS

open Function Prog

/-- Push a page on the free list, as `kfree` does after its check. -/
def Kernel.push (s : Kernel) (pa : Nat) : Kernel :=
  { s with
    freelist := pa :: s.freelist
    mem := update s.mem pa (runPage s.freelist.head?) }

/-- The state after `kalloc` has popped `pa`, the list being
`pa :: rest`. -/
def Kernel.popped (s : Kernel) (pa : Nat) (rest : List Nat) : Kernel :=
  { s with
    freelist := rest
    mem := update s.mem pa (fill 5) }

/-- One allocation or release by the rest of the kernel. It frees only
what it holds. -/
def EnvOp.apply (s : Kernel) : EnvOp → Kernel
  | .take =>
    match s.freelist with
    | [] => s
    | pa :: rest => { s.popped pa rest with held := pa :: s.held }
  | .give pa =>
    if pa ∈ s.held then { s.push pa with held := s.held.erase pa } else s

/-- The turn of the rest of the kernel before a `kalloc` call. -/
def Kernel.interfered (s : Kernel) : Kernel :=
  match s.env with
  | [] => s
  | ops :: rest => ops.foldl EnvOp.apply { s with env := rest }

def interfere : K Unit := modify Kernel.interfered

def kalloc : K (Option Nat) := do
  interfere
  let s ← get
  match s.freelist with
  | [] => return none
  | pa :: rest =>
    modify fun s => s.popped pa rest
    return some pa

def kfree (pa : Nat) : K Unit := do
  let s ← get
  if pa % pgsize ≠ 0 ∨ pa < s.kend ∨ phystop ≤ pa then panic "kfree"
  else modify fun s => s.push pa

-- ======== evaluation

/-- `kalloc` never faults: it reports what is in front once the others
have had their turn. -/
theorem kalloc_run (s : Kernel) : kalloc s = match s.interfered.freelist with
        | [] => .ok (none, s.interfered, [])
        | pa :: rest =>
          .ok (some pa, s.interfered.popped pa rest, []) := by
  simp only [kalloc, interfere, modify_bind_run, get_bind_run]
  cases s.interfered.freelist <;> rfl

theorem kfree_run {s : Kernel} {pa : Nat} (halign : pa % pgsize = 0)
    (hlo : s.kend ≤ pa) (hhi : pa < phystop) : kfree pa s = .ok ((), s.push pa, []) := by
  simp only [kfree, get_bind_run]
  rw [if_neg (by omega)]
  rfl

theorem kfree_ok {s s' : Kernel} {pa : Nat} {u : Unit}
    {t : List (Mark × Kernel)} (h : kfree pa s = .ok (u, s', t)) : s' = s.push pa ∧ t = [] := by
  simp only [kfree, get_bind_run] at h
  split at h
  · cases h
  · cases h
    exact ⟨rfl, rfl⟩

-- ======== interference

/-- The rest of the kernel only moves pages between the free list and
its own holdings. -/
theorem EnvOp.apply_shape (s : Kernel) (o : EnvOp) :
    ∃ fl hd m, o.apply s = { s with freelist := fl, held := hd, mem := m }
      ∧ (fl ++ hd).Perm (s.freelist ++ s.held) := by
  cases o with
  | take =>
    simp only [apply]
    split
    · exact ⟨s.freelist, s.held, s.mem, rfl, .refl _⟩
    · rename_i pa rest h
      rw [h]
      exact ⟨rest, pa :: s.held, _, rfl, List.perm_middle⟩
  | give pa =>
    simp only [apply]
    split
    · rename_i h
      have herase : s.held.Perm (pa :: s.held.erase pa) := List.perm_cons_erase h
      refine ⟨pa :: s.freelist, s.held.erase pa, _, rfl, ?_⟩
      exact (List.perm_middle.symm).trans (herase.symm.append_left _)
    · exact ⟨s.freelist, s.held, s.mem, rfl, .refl _⟩

/-- Several turns of the rest of the kernel. -/
theorem EnvOp.foldl_shape (ops : List EnvOp) : ∀ s : Kernel, ∃ fl hd m, ops.foldl EnvOp.apply s
        = { s with freelist := fl, held := hd, mem := m }
      ∧ (fl ++ hd).Perm (s.freelist ++ s.held) := by
  induction ops with
  | nil => intro s; exact ⟨s.freelist, s.held, s.mem, rfl, .refl _⟩
  | cons o ops ih =>
    intro s
    obtain ⟨fl, hd, m, ho, hp⟩ := EnvOp.apply_shape s o
    obtain ⟨fl', hd', m', hops, hp'⟩ := ih (o.apply s)
    rw [ho] at hp' hops
    exact ⟨fl', hd', m', by rw [List.foldl_cons, ho, hops], hp'.trans hp⟩

theorem Kernel.interfered_shape (s : Kernel) : ∃ fl hd m e,
      s.interfered = { s with freelist := fl, held := hd, mem := m, env := e }
      ∧ (fl ++ hd).Perm (s.freelist ++ s.held) := by
  unfold Kernel.interfered
  cases he : s.env with
  | nil => exact ⟨s.freelist, s.held, s.mem, s.env, rfl, .refl _⟩
  | cons ops rest =>
    -- the remaining script rides along unchanged
    obtain ⟨fl, hd, m, h, hp⟩ := EnvOp.foldl_shape ops { s with env := rest }
    exact ⟨fl, hd, m, rest, h, hp⟩

/-- Without interference `kalloc` sees the list as it is. -/
@[simp] theorem Kernel.interfered_of_env_nil {s : Kernel} (h : s.env = []) : s.interfered = s := by
  unfold Kernel.interfered
  rw [h]

end GemOS
