/-
The log as any number of operations use it at once.

An operation is named by an `ι`; how many there are is left open. Between
`begin_op` and `end_op` it remembers which blocks it has logged, as the
rule that it may log at most `MAXOPBLOCKS` different ones is about them.
No section reads that list. The last operation to end runs `commit`,
which empties the log; what it does to the disk is in `Kernel.Log`.
-/
import GemOS.Kernel.Log

namespace GemOS

open Prog

/-- Where an operation stands. -/
inductive LogPos
  | out
  /-- Between `begin_op` and `end_op`, with the blocks it has logged. -/
  | inside (mine : List Nat)
  /-- In `commit`. -/
  | committing
  /-- Back from `commit`. -/
  | committed
  deriving DecidableEq

structure LogSys (ι : Type) where
  log : Log
  pos : ι → LogPos

variable {ι : Type} [DecidableEq ι]

abbrev LogSysM (ι : Type) : Type → Type := Prog (LogSys ι) Halt Empty

/-- One section of some operation. -/
inductive LogOp (ι : Type)
  | beginOp (t : ι)
  | logWrite (t : ι) (blockno : Nat)
  | endOp (t : ι)
  /-- `commit` sets `log.lh.n = 0`. -/
  | commit (t : ι)
  /-- `end_op` clears `log.committing`. -/
  | finish (t : ι)

def LogSys.move (s : LogSys ι) (t : ι) (l : Log) (p : LogPos) : LogSys ι :=
  ⟨l, Function.update s.pos t p⟩

/-- May an operation that has logged `mine` log this block? -/
def MayLog (mine : List Nat) (blockno : Nat) : Prop :=
  blockno ∈ mine ∨ mine.length < maxopblocks

instance (mine : List Nat) (blockno : Nat) :
    Decidable (MayLog mine blockno) := inferInstanceAs (Decidable (_ ∨ _))

def LogOp.prog : LogOp ι → LogSysM ι Unit
  | .beginOp t => do
    let s ← get
    match s.pos t with
    | .out =>
      match s.log.beginOp with
      | none => fault .blocked
      | some l => modify fun s => s.move t l (.inside [])
    | _ => fault .blocked
  | .logWrite t blockno => do
    let s ← get
    match s.pos t with
    | .inside mine =>
      if MayLog mine blockno then
        match s.log.write blockno with
        | .error msg => fault (.panic msg)
        | .ok (_, l) =>
          modify fun s => s.move t l (.inside (mine.insert blockno))
      else fault .blocked
    | _ => fault .blocked
  | .endOp t => do
    let s ← get
    match s.pos t with
    | .inside _ =>
      match s.log.endOp with
      | .error msg => fault (.panic msg)
      | .ok (true, l) => modify fun s => s.move t l .committing
      | .ok (false, l) => modify fun s => s.move t l .out
    | _ => fault .blocked
  | .commit t => do
    let s ← get
    match s.pos t with
    | .committing =>
      modify fun s => s.move t { s.log with lh := [] } .committed
    | _ => fault .blocked
  | .finish t => do
    let s ← get
    match s.pos t with
    | .committed => modify fun s => s.move t s.log.committed .out
    | _ => fault .blocked

/-- An empty log that nobody uses. -/
def LogFresh (s : LogSys ι) : Prop :=
  s.log.lh = [] ∧ s.log.outstanding = 0 ∧ s.log.committing = false ∧ ∀ t, s.pos t = .out

/-- The runs of the system. -/
abbrev LogRuns : Notes Empty (LogSys ι) → LogSys ι → Prop :=
  Reach (fun _ _ => True) LogFresh LogOp.prog

end GemOS
