/-
The names of an inode, and how many of them a `Change` makes or takes.

`named s i` is the number of entries for inode `i` besides `.` and `..`.
-/
import GemOS.Proofs.FileCalls

namespace GemOS

open Function Prog

namespace Vfs

-- ======== link counts

variable {n : UInt16} {y : IType} {d : Node} {i p : Nat} {l : List Dirent}

theorem toNat_succ (h : n ≠ 0xFFFF) : (n + 1).toNat = n.toNat + 1 := by
  have hlt := n.toNat_lt
  have hne : n.toNat ≠ 65535 := fun heq => h (UInt16.toNat.inj heq)
  rw [UInt16.toNat_add]
  show (n.toNat + 1) % 65536 = _
  omega

theorem toNat_pred (h : n ≠ 0) : (n - 1).toNat = n.toNat - 1 := by
  have hpos : n.toNat ≠ 0 := fun heq => h (UInt16.toNat.inj heq)
  refine UInt16.toNat_sub_of_le _ _ ?_
  show 1 ≤ n.toNat
  omega

-- ======== entries

section

variable {de : Dirent} {l l' : List Dirent} {P : Dirent → Bool}

/-- A new entry counts once, the free ones do not count. -/
theorem Added.countP (h : Added de l l') (hP : ∀ x : Dirent, x.inum = 0 → P x = false) :
    l'.countP P = l.countP P + if P de then 1 else 0 := by
  cases h with
  | slot front back old hz => grind
  | last => rw [List.countP_append, List.countP_singleton]

theorem Added.self_mem (h : Added de l l') : de ∈ l' := by
  cases h with
  | slot front back old hz => exact List.mem_append_right _ List.mem_cons_self
  | last => exact List.mem_append_right _ List.mem_cons_self

variable {x : Dirent}

theorem Added.mem_of_mem (h : Added de l l') (hx : x ∈ l) (hne : x.inum ≠ 0) : x ∈ l' := by
  cases h with
  | slot front back old hz => grind
  | last => exact List.mem_append_left _ hx

/-- An entry that is gone counted once. -/
theorem Removed.countP (h : Removed de l l') (hP : P ⟨0, []⟩ = false) :
    l.countP P = l'.countP P + if P de then 1 else 0 := by
  cases h with
  | slot front back => grind

theorem Removed.mem (h : Removed de l l') : de ∈ l := by
  cases h with
  | slot front back => exact List.mem_append_right _ List.mem_cons_self

theorem Removed.mem_of_mem (h : Removed de l l') (hx : x ∈ l') : x ∈ l ∨ x.inum = 0 := by
  cases h with
  | slot front back => grind

theorem Removed.mem_of_ne (h : Removed de l l') (hx : x ∈ l) (hne : x.inum ≠ de.inum) : x ∈ l' := by
  cases h with
  | slot front back => grind

end

theorem ne_free_of_dir (h : y = .dir) : y ≠ .free := by
  rw [h]
  decide

theorem ne_dir_of_free (h : y = .free) : y ≠ .dir := by
  rw [h]
  decide

/-- The entries besides `.` and `..`. -/
def Node.names (d : Node) : List Dirent :=
  if d.type = .dir then d.ents.drop 2 else []

/-- The inode of `..`. -/
def Node.parent (d : Node) : Option Nat := d.ents[1]?.map Dirent.inum

/-- The names are the entries after `.` and `..`. -/
theorem HasNames.names (h : HasNames d i p l) : d.names = l := by
  unfold Node.names
  rw [if_pos h.type, h.ents]
  rfl

theorem HasNames.parent (h : HasNames d i p l) : d.parent = some p := by
  unfold Node.parent
  rw [h.ents]
  rfl

theorem Node.names_of_ne (h : d.type ≠ .dir) : d.names = [] := if_neg h

/-- The entries for an inode in a directory. -/
def Node.count (i : Nat) (d : Node) : Nat :=
  d.names.countP fun de => de.inum == i

/-- Only a directory has entries. -/
theorem Node.count_of_ne (i : Nat) (h : d.type ≠ .dir) : d.count i = 0 := by
  unfold Node.count
  rw [Node.names_of_ne h]
  rfl

/-- How many entries name the inode. -/
def named (s : Vfs) (i : Nat) : Nat :=
  tally (Finset.range s.ninodes) (Node.count i) s.node

section

variable {s s' m : Vfs} {t : Notes Note Vfs} {d i x : Nat} {name : Name} {type : IType}

/-- One inode changes. -/
theorem tally_node (s s' : Vfs) (w : Node → Nat) (hd : d < s.ninodes) (y : Node)
    (hn : s'.ninodes = s.ninodes) (hnode : s'.node = update s.node d y) :
    tally (Finset.range s'.ninodes) w s'.node + w (s.node d)
      = tally (Finset.range s.ninodes) w s.node + w y := by
  rw [hn, hnode]
  exact tally_update (Finset.mem_range.mpr hd) y

/-- Two inodes change. -/
theorem tally_two (s s' : Vfs) (w : Node → Nat) (hd : d < s.ninodes)
    (hi : i < s.ninodes) (hne : d ≠ i) (hn : s'.ninodes = s.ninodes)
    (hother : ∀ x, x ≠ d → x ≠ i → s'.node x = s.node x) :
    tally (Finset.range s'.ninodes) w s'.node + w (s.node d) + w (s.node i)
      = tally (Finset.range s.ninodes) w s.node + w (s'.node d) + w (s'.node i) := by
  have hmid := tally_node s (withNode s i (s'.node i)) w hi (s'.node i) rfl rfl
  have hlast := tally_node (withNode s i (s'.node i)) s' w hd (s'.node d) hn ?_
  · rw [withNode_of_ne s _ hne] at hlast
    omega
  · grind [update_apply, withNode_self, withNode_of_ne]

variable {de : Dirent}

/-- What is named has a positive count. -/
theorem named_pos (hd : d < s.ninodes) (hde : de ∈ (s.node d).names) : 0 < named s de.inum := by
  have hle := le_tally (w := Node.count de.inum) (f := s.node) (Finset.mem_range.mpr hd)
  have hpos : 0 < (s.node d).count de.inum := List.countP_pos_iff.mpr ⟨de, hde, by simp⟩
  unfold named
  omega

/-- An inode that is not named is in no directory. -/
theorem names_ne (hd : d < s.ninodes) (hz : named s i = 0)
    (hde : de ∈ (s.node d).names) : de.inum ≠ i := by
  intro heq
  have := named_pos hd hde
  rw [heq, hz] at this
  exact absurd this (lt_irrefl _)

/-- A new name. -/
theorem named_added {p : Nat} {l l' : List Dirent} {y : Node}
    (hold : HasNames (s.node d) d p l) (hadd : Added ⟨i, name⟩ l l')
    (hy : y.names = l') (hx : x ≠ 0) : y.count x = (s.node d).count x + if i = x then 1 else 0 := by
  unfold Node.count
  rw [hy, hold.names, hadd.countP]
  · simp only [beq_iff_eq]
  · grind

section

variable (hc : Created s s' t d i name type)

include hc

theorem Created.ne : d ≠ i := by
  obtain ⟨p, l, l', hold, -⟩ := hc.names
  intro heq
  have hfree := hc.free
  rw [← heq, hold.type] at hfree
  cases hfree

theorem Created.type_eq (hx : x ≠ i) : (s'.node x).type = (s.node x).type := by
  by_cases hxd : x = d
  · obtain ⟨p, l, l', -, -, hnode⟩ := hc.names
    rw [hxd, hnode]
  · rw [hc.other x hxd hx]

/-- The new inode has no names in it. -/
theorem Created.made_names : (s'.node i).names = [] := by
  obtain ⟨htype, -, hents⟩ := hc.made
  unfold Node.names
  by_cases hdir : type = .dir
  · rw [htype, if_pos hdir, hents, if_pos hdir]
    rfl
  · rw [htype, if_neg hdir]

/-- The directory with its new entry. -/
theorem Created.names_dir :
    ∃ p l l', HasNames (s.node d) d p l ∧ Added ⟨i, name⟩ l l' ∧ HasNames (s'.node d) d p l' := by
  obtain ⟨p, l, l', hold, hadd, hnode⟩ := hc.names
  refine ⟨p, l, l', hold, hadd, ?_, ?_⟩
  · rw [hnode]; exact hold.type
  · rw [hnode]

/-- The new inode has its first name, all others the ones they had. -/
theorem Created.named (hn : s'.ninodes = s.ninodes) (hd : d < s.ninodes) (hx : x ≠ 0) :
    named s' x = named s x + if i = x then 1 else 0 := by
  obtain ⟨p, l, l', hold, hadd, hnew⟩ := hc.names_dir
  have htwo := tally_two s s' (Node.count x) hd hc.inum.2 hc.ne hn hc.other
  have hfree : (s.node i).count x = 0 := Node.count_of_ne x (ne_dir_of_free hc.free)
  have hmade : (s'.node i).count x = 0 := by
    unfold Node.count
    rw [hc.made_names]
    rfl
  have := named_added hold hadd hnew.names hx
  unfold Vfs.named
  omega

end

theorem Linked.ne (hl : Linked s s' t d i name) : d ≠ i := by
  obtain ⟨p, l, l', hold, -⟩ := hl.names
  intro heq
  have htype := hl.type.2
  rw [← heq] at htype
  exact htype hold.type

/-- The directory has one entry more. -/
theorem Linked.names_dir (hl : Linked s s' t d i name) :
    ∃ p l l', HasNames (s.node d) d p l ∧ Added ⟨i, name⟩ l l' ∧ HasNames (s'.node d) d p l' := by
  obtain ⟨p, l, l', hold, hadd, hnode⟩ := hl.names
  refine ⟨p, l, l', hold, hadd, ?_, ?_⟩
  · rw [hnode]; exact hold.type
  · rw [hnode]

theorem Linked.type_eq (hl : Linked s s' t d i name) (x : Nat) :
    (s'.node x).type = (s.node x).type := by
  by_cases hxd : x = d
  · obtain ⟨p, l, l', -, -, hnode⟩ := hl.names
    rw [hxd, hnode]
  · grind [hl.inode, hl.other]

/-- `link` adds one name to one inode. -/
theorem Linked.named (hl : Linked s s' t d i name)
    (hn : s'.ninodes = s.ninodes) (hd : d < s.ninodes) (hi : i < s.ninodes) (hx : x ≠ 0) :
    named s' x = named s x + if i = x then 1 else 0 := by
  obtain ⟨p, l, l', hold, hadd, hnew⟩ := hl.names_dir
  have htwo := tally_two s s' (Node.count x) hd hi hl.ne hn hl.other
  have hbefore : (s.node i).count x = 0 := Node.count_of_ne x hl.type.2
  have hafter : (s'.node i).count x = 0 := Node.count_of_ne x (by rw [hl.type_eq]; exact hl.type.2)
  have := named_added hold hadd hnew.names hx
  unfold Vfs.named
  omega

section

variable (hu : Unlinked s m s' t d i name)

include hu

/-- The directory has one entry less. -/
theorem Unlinked.names_dir :
    ∃ p l l', HasNames (s.node d) d p l ∧ Removed ⟨i, name⟩ l l' ∧ HasNames (m.node d) d p l' := by
  obtain ⟨p, l, l', hold, hrem, hnode⟩ := hu.names
  refine ⟨p, l, l', hold, hrem, ?_, ?_⟩
  · rw [hnode]; exact hold.type
  · rw [hnode]

theorem Unlinked.type_eq (x : Nat) : (m.node x).type = (s.node x).type := by
  by_cases hxd : x = d
  · obtain ⟨p, l, l', -, -, hnode⟩ := hu.names
    rw [hxd, hnode]
  · rw [hu.other x hxd]

/-- The entries of the directory without the name. -/
theorem Unlinked.count_dir (hx : x ≠ 0) : (s.node d).count x
      = (m.node d).count x + if i = x then 1 else 0 := by
  obtain ⟨p, l, l', hold, hrem, hnew⟩ := hu.names_dir
  have hz : (fun de : Dirent => de.inum == x) ⟨0, []⟩ = false := beq_false_of_ne hx.symm
  unfold Node.count
  rw [hold.names, hnew.names, hrem.countP hz]
  simp only [beq_iff_eq]

/-- The state after `unlink` has lowered the link count, had the directory
not been put before. -/
def lowered (m : Vfs) (i : Nat) : Vfs :=
  withNode m i { m.node i with nlink := (m.node i).nlink - 1 }

theorem Unlinked.node_ne : (lowered m i).node d = m.node d := withNode_of_ne m _ hu.ne.symm

/-- The inode that loses a name. -/
theorem Unlinked.node_inode : (lowered m i).node i
      = { s.node i with nlink := (s.node i).nlink - 1 } := by
  rw [← hu.other i hu.ne]
  exact withNode_self m i _

theorem Unlinked.node_other (hxd : x ≠ d) (hxi : x ≠ i) : (lowered m i).node x = s.node x := by
  rw [← hu.other x hxd]
  exact withNode_of_ne m _ hxi

theorem Unlinked.type_lowered (x : Nat) : ((lowered m i).node x).type = (s.node x).type := by
  by_cases hxi : x = i
  · rw [hxi, hu.node_inode]
  · rw [← hu.type_eq x]
    exact congrArg Node.type (withNode_of_ne m _ hxi)

theorem Unlinked.names_eq (hxd : x ≠ d) : ((lowered m i).node x).names = (s.node x).names := by
  by_cases hxi : x = i
  · rw [hxi, hu.node_inode]
    rfl
  · rw [hu.node_other hxd hxi]

/-- `unlink` takes one name from one inode. -/
theorem Unlinked.named (hd : d < s.ninodes) (hi : i < s.ninodes) (hx : x ≠ 0) :
    named s x = named (lowered m i) x + if i = x then 1 else 0 := by
  have htwo := tally_two s (lowered m i) (Node.count x) hd hi
    hu.ne.symm hu.ninodes fun y hyd hyi => hu.node_other hyd hyi
  have hinode : ((lowered m i).node i).count x = (s.node i).count x := by
    unfold Node.count
    rw [hu.names_eq hu.ne]
  have hdir := hu.count_dir hx
  rw [hu.node_ne] at htwo
  unfold Vfs.named
  omega

theorem Unlinked.mem : ⟨i, name⟩ ∈ (s.node d).names := by
  obtain ⟨p, l, l', hold, hrem, -⟩ := hu.names_dir
  rw [hold.names]
  exact hrem.mem

end

-- ======== directories in order

/-- Every directory has its dots, and every allocated inode its place. -/
structure Shaped (s : Vfs) : Prop where
  shape : ∀ i, (s.node i).type = .dir → ∃ p l, HasNames (s.node i) i p l
  inside : ∀ i, (s.node i).type ≠ .free → i ≠ 0 ∧ i < s.ninodes

/-- An inode is free, has kept its type and its entries, or is in order. -/
theorem Shaped.step (hs : Shaped s) (hn : s'.ninodes = s.ninodes)
    (h : ∀ x, (s'.node x).type ≠ .free →
      ((s'.node x).type = (s.node x).type ∧ (s'.node x).ents = (s.node x).ents)
      ∨ ((x ≠ 0 ∧ x < s.ninodes)
        ∧ ((s'.node x).type = .dir → ∃ p l, HasNames (s'.node x) x p l))) : Shaped s' := by
  constructor
  · intro x hx
    rcases h x (ne_free_of_dir hx) with ⟨htype, hents⟩ | ⟨-, hnew⟩
    · obtain ⟨p, l, hk⟩ := hs.shape x (htype.symm.trans hx)
      exact ⟨p, l, hx, hents.trans hk.ents⟩
    · exact hnew hx
  · intro x hx
    rw [hn]
    rcases h x hx with ⟨htype, -⟩ | ⟨hin, -⟩
    · exact hs.inside x (htype ▸ hx)
    · exact hin

theorem Shaped.congr (hs : Shaped s) (hn : s'.ninodes = s.ninodes) (hnode : s'.node = s.node) :
    Shaped s' :=
  hs.step hn fun x _ => .inl ⟨by rw [hnode], by rw [hnode]⟩

theorem Shaped.cleared (hs : Shaped s) (hn : s'.ninodes = s.ninodes)
    (hself : (s'.node i).type = .free) (hother : ∀ x, x ≠ i → s'.node x = s.node x) :
    Shaped s' := by
  refine hs.step hn fun x hx => .inl ?_
  rw [hother x fun heq => hx (heq ▸ hself)]
  exact ⟨rfl, rfl⟩

/-- A new directory has its two entries, a new file none. -/
theorem Shaped.create (hs : Shaped s) (hc : Created s s' t d i name type)
    (hn : s'.ninodes = s.ninodes) : Shaped s' := by
  refine hs.step hn fun x _ => ?_
  by_cases hxi : x = i
  · subst hxi
    refine .inr ⟨hc.inum, fun hdir => ⟨d, [], hdir, ?_⟩⟩
    rw [hc.made.2.2, if_pos (hc.made.1.symm.trans hdir), List.append_nil]
  · by_cases hxd : x = d
    · obtain ⟨p, l, l', hold, -, hnew⟩ := hc.names_dir
      subst hxd
      exact .inr ⟨hs.inside x (ne_free_of_dir hold.type), fun _ => ⟨p, l', hnew⟩⟩
    · rw [hc.other x hxd hxi]
      exact .inl ⟨rfl, rfl⟩

theorem Shaped.link (hs : Shaped s) (hl : Linked s s' t d i name)
    (hn : s'.ninodes = s.ninodes) : Shaped s' := by
  refine hs.step hn fun x _ => ?_
  by_cases hxd : x = d
  · obtain ⟨p, l, l', hold, -, hnew⟩ := hl.names_dir
    subst hxd
    exact .inr ⟨hs.inside x (ne_free_of_dir hold.type), fun _ => ⟨p, l', hnew⟩⟩
  · by_cases hxi : x = i
    · rw [hxi, hl.inode]
      exact .inl ⟨rfl, rfl⟩
    · rw [hl.other x hxd hxi]
      exact .inl ⟨rfl, rfl⟩

/-- An entry that is removed does not change the shape. -/
theorem Shaped.lower (hs : Shaped s) (hu : Unlinked s m s' t d i name) : Shaped (lowered m i) := by
  refine hs.step hu.ninodes fun x _ => ?_
  by_cases hxd : x = d
  · obtain ⟨p, l, l', hold, -, hnew⟩ := hu.names_dir
    rw [hxd, hu.node_ne]
    exact .inr ⟨hs.inside d (ne_free_of_dir hold.type), fun _ => ⟨p, l', hnew⟩⟩
  · by_cases hxi : x = i
    · rw [hxi, hu.node_inode]
      exact .inl ⟨rfl, rfl⟩
    · rw [hu.node_other hxd hxi]
      exact .inl ⟨rfl, rfl⟩

end

theorem bootFs_node_ne (hi : i ≠ 1) : bootFs.node i = ⟨.free, 0, 0, 0, []⟩ := if_neg hi

theorem eq_one_of_bootFs (h : (bootFs.node i).type ≠ .free) : i = 1 := by
  by_contra hne
  rw [bootFs_node_ne hne] at h
  exact h rfl

/-- The root directory is the only inode at boot. -/
theorem bootFs_shaped : Shaped bootFs := by
  constructor <;> intro i hi
  · rw [eq_one_of_bootFs (ne_free_of_dir hi)]
    exact ⟨1, [], rfl, rfl⟩
  · rw [eq_one_of_bootFs hi]
    exact ⟨one_ne_zero, by decide⟩

theorem named_bootFs (i : Nat) : named bootFs i = 0 := by
  refine tally_eq_zero.mpr fun d _ => ?_
  by_cases hd : d = 1
  · rw [hd]; rfl
  · rw [bootFs_node_ne hd]; rfl

end Vfs

end GemOS
