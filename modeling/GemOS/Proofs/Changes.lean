/-
What system calls do to the name space, once and for all.

`Change` lists the ways in which the inodes and the current directories
change: an inode is freed, a process moves, a name is made or removed. A
call makes a sequence of them (`Effects`), with the notes it leaves. What
is to hold in every state reached is then proved for each `Change`, not for
the code.
-/
import GemOS.Proofs.Lookup

namespace GemOS

open Function Prog

namespace Vfs

/-- `itrunc(ip); ip->type = 0`. -/
def Node.clear (d : Node) : Node := { d with type := .free, ents := [] }

/-- Inode `i` may be freed. -/
inductive Freeing (s : Vfs) (i : Nat) : Notes Note Vfs → (Nat → Node) → Prop
  | none : Freeing s i [] s.node
  | freed (e : InodeId) : (s.itable e).inum = i → (s.node i).nlink = 0 → (s.node i).type ≠ .free →
      Freeing s i [(.freed e, s)] (update s.node i (s.node i).clear)

/-- An entry is put into a free slot or appended. -/
inductive Added (de : Dirent) : List Dirent → List Dirent → Prop
  | slot (front back : List Dirent) (old : Dirent) : old.inum = 0 →
      Added de (front ++ old :: back) (front ++ de :: back)
  | last (front : List Dirent) : Added de front (front ++ [de])

/-- An entry is zeroed. -/
inductive Removed (de : Dirent) : List Dirent → List Dirent → Prop
  | slot (front back : List Dirent) : Removed de (front ++ de :: back) (front ++ ⟨0, []⟩ :: back)

/-- Directory `d` has the entries `names` besides `.` and `..`. -/
structure HasNames (d : Node) (i p : Nat) (names : List Dirent) : Prop where
  type : d.type = .dir
  ents : d.ents = dots i p ++ names

/-- Inode `i` is made with a name in directory `d`. -/
structure Created (s s' : Vfs) (t : Notes Note Vfs) (d i : Nat)
    (name : Name) (type : IType) : Prop where
  reach : Reachable s d
  free : (s.node i).type = .free
  inum : i ≠ 0 ∧ i < s.ninodes
  type_ne : type ≠ .free
  names : ∃ p names names', HasNames (s.node d) d p names ∧ Added ⟨i, name⟩ names names'
    ∧ s'.node d = { s.node d with
        ents := dots d p ++ names'
        nlink := (s.node d).nlink + if type = .dir then 1 else 0 }
  made : (s'.node i).type = type ∧ (s'.node i).nlink = 1
    ∧ (s'.node i).ents = if type = .dir then dots i d else []
  other : ∀ x, x ≠ d → x ≠ i → s'.node x = s.node x
  adds : ∃ m, (Note.adds d, m) ∈ t ∧ m.node d = s.node d
  raises : type = .dir → ∃ m, (Note.raises d, m) ∈ t ∧ (m.node d).nlink = (s.node d).nlink

/-- Inode `i` gets another name, in directory `d`. -/
structure Linked (s s' : Vfs) (t : Notes Note Vfs) (d i : Nat) (name : Name) : Prop where
  type : (s.node i).type ≠ .free ∧ (s.node i).type ≠ .dir
  names : ∃ p names names', HasNames (s.node d) d p names ∧ Added ⟨i, name⟩ names names'
    ∧ s'.node d = { s.node d with ents := dots d p ++ names' }
  inode : s'.node i = { s.node i with nlink := (s.node i).nlink + 1 }
  other : ∀ x, x ≠ d → x ≠ i → s'.node x = s.node x
  adds : ∃ m, (Note.adds d, m) ∈ t ∧ m.node d = s.node d
  raises : ∃ m, (Note.raises i, m) ∈ t ∧ m.node i = s.node i

/-- Inode `i` loses a name in directory `d`. In between, in `m`, the
directory is put and may be freed. -/
structure Unlinked (s m s' : Vfs) (t : Notes Note Vfs) (d i : Nat) (name : Name) : Prop where
  type : (s.node i).type ≠ .free
  links : (s.node i).nlink ≠ 0
  ne : i ≠ d
  empty : (s.node i).type = .dir → ∃ p names,
    HasNames (s.node i) i p names ∧ ∀ de ∈ names, de.inum = 0
  names : ∃ p names names', HasNames (s.node d) d p names ∧ Removed ⟨i, name⟩ names names'
    ∧ m.node d = { s.node d with
        ents := dots d p ++ names'
        nlink := (s.node d).nlink - if (s.node i).type = .dir then 1 else 0 }
  inum : i ≠ 0
  other : ∀ x, x ≠ d → m.node x = s.node x
  ninodes : m.ninodes = s.ninodes
  cwd : ∀ q, cwdOf m q = cwdOf s q
  put : ∃ node', Freeing m d t node' ∧ s'.node = update node' i
      { node' i with nlink := (node' i).nlink - 1 }

/-- One change of the name space, with the notes it leaves. -/
inductive Change (s s' : Vfs) (t : Notes Note Vfs) : Prop
  | same : s'.node = s.node → (∀ q, cwdOf s' q = cwdOf s q) → Change s s' t
  | put (i : Nat) : Freeing s i t s'.node → (∀ q, cwdOf s' q = cwdOf s q) → Change s s' t
  /-- A process leaves its current directory, perhaps for another. -/
  | leave (p : ProcId) (o : Option Nat) (i : Nat) : Freeing s i t s'.node →
      (∀ x, o = some x → Reachable s x ∧ (s.node x).type = .dir) →
      (∀ q, cwdOf s' q = if q = p then o else cwdOf s q) → Change s s' t
  | fork (p np : ProcId) : s'.node = s.node →
      (∀ q, cwdOf s' q = if q = np then cwdOf s p else cwdOf s q) →
      Change s s' t
  /-- A `create` that failed. -/
  | scrap (i : Nat) : (s.node i).type = .free → (s'.node i).type = .free → (s'.node i).ents = [] →
      (∀ x, x ≠ i → s'.node x = s.node x) →
      (∀ q, cwdOf s' q = cwdOf s q) → Change s s' t
  | create (d i : Nat) (name : Name) (type : IType) : Created s s' t d i name type →
      (∀ q, cwdOf s' q = cwdOf s q) → Change s s' t
  | link (d i : Nat) (name : Name) : Linked s s' t d i name →
      (∀ q, cwdOf s' q = cwdOf s q) → Change s s' t
  | unlink (m : Vfs) (d i : Nat) (name : Name) : Unlinked s m s' t d i name →
      (∀ q, cwdOf s' q = cwdOf s q) → Change s s' t

/-- The changes a call makes, in order, with all its notes. -/
inductive Effects : Vfs → Notes Note Vfs → Vfs → Prop
  | nil (s : Vfs) : Effects s [] s
  | snoc {s s1 s2 : Vfs} {t t1 : Notes Note Vfs} : Effects s t s1 →
      Change s1 s2 t1 → s2.ninodes = s1.ninodes → Effects s (t ++ t1) s2

variable {s s1 s2 : Vfs} {t t1 t2 : Notes Note Vfs}

/-- What every change keeps, as long as its notes satisfy `G`, the whole
call keeps. -/
theorem Effects.invariant {I : Vfs → Prop} {G : Note → Vfs → Prop}
    (hstep : ∀ s s' t, Change s s' t → s'.ninodes = s.ninodes → (∀ n ∈ t, G n.1 n.2) → I s → I s')
    (h : Effects s t s1) (hG : ∀ n ∈ t, G n.1 n.2) (hs : I s) : I s1 := by
  induction h with
  | nil => exact hs
  | snoc _ hc hn ih =>
    refine hstep _ _ _ hc hn (fun n hn => hG n (List.mem_append_right _ hn)) (ih ?_)
    exact fun n hn => hG n (List.mem_append_left _ hn)

end Vfs

end GemOS
