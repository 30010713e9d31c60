/-
The system: what processes and the rest of the kernel can do, one
complete operation at a time.

Each operation is a program, and a run of the system is any sequence of
them (`Prog.Reach`). A system call or a trap runs on behalf of a process
that is `RUNNING`; the scheduler moves processes between their states.
What other parts of the kernel do to the allocator in the middle of an
operation is in the script `env`, which they may rewrite at any time.
-/
import GemOS.Kernel.Boot
import GemOS.Kernel.Exec

namespace GemOS

open Prog

/-- `usertrap` on a load or store page fault: a fault that `vmfault`
reports as failed kills the process. -/
def usertrapFault (me : ProcId) (va : Nat) : K Unit := do
  let root ← pagetableOf me
  if (← vmfault me root va) ≠ 0 then return ()
  else
    modify fun s => s.updProc me fun q => { q with killed := true }
    kexit me (-1)

/-- A store instruction of the user program: it goes through when the
page is mapped, for the user and writable, and traps otherwise. -/
def userStore (me : ProcId) (va : Nat) (b : UInt8) : K Unit := do
  let root ← pagetableOf me
  let s ← get
  let pte := s.pte root va
  if isV pte ∧ isU pte ∧ isW pte then
    modify fun s => s.writeBytes (pte2pa pte) (va % pgsize) [b]
  else usertrapFault me va

/-- The states between which the scheduler, `sleep` and `wakeup` move a
process. -/
def ProcState.scheduled : ProcState → Bool
  | .sleeping | .runnable | .running => true
  | _ => false

/-- One operation of the system. -/
inductive Op
  | userinit
  | sbrk (p : ProcId) (n : Int) (eager : Bool)
  | store (p : ProcId) (va : Nat) (b : UInt8)
  | fault (p : ProcId) (va : Nat)
  | copyin (p : ProcId) (srcva len : Nat)
  | copyout (p : ProcId) (dstva : Nat) (src : List UInt8)
  | fork (p : ProcId)
  | exec (p : ProcId) (exe : Option Exe) (argv : List (List UInt8))
  | exit (p : ProcId) (status : Int)
  | wait (p : ProcId) (addr : Nat)
  | setdisksched (policy : Int)
  | setRaidMode (mode : Int)
  | schedule (p : ProcId) (state : ProcState) (level : Fin mlfqLevels)
  | tick
  | interfere (ops : List EnvOp)
  | script (env : List (List EnvOp))

/-- An operation of a process happens only while it runs. -/
def whileRunning {α : Type} (p : ProcId) (x : K α) : K Unit := do
  let s ← get
  if (s.proc p).state = .running then
    let _ ← x
    return ()
  else return ()

def Op.prog : Op → K Unit
  | .userinit => GemOS.userinit
  | .sbrk p n eager => whileRunning p (sysSbrk p n eager)
  | .store p va b => whileRunning p (userStore p va b)
  | .fault p va => whileRunning p (usertrapFault p va)
  | .copyin p srcva len => whileRunning p do
      let root ← pagetableOf p
      GemOS.copyin p root srcva len
  | .copyout p dstva src => whileRunning p do
      let root ← pagetableOf p
      GemOS.copyout p root dstva src
  | .fork p => whileRunning p (kfork p)
  | .exec p exe argv => whileRunning p (kexec p exe argv)
  | .exit p status => whileRunning p (kexit p status)
  | .wait p addr => whileRunning p (kwait p addr)
  | .setdisksched policy => do
    let _ ← GemOS.setdisksched policy
    return ()
  | .setRaidMode mode => GemOS.setRaidMode mode
  | .schedule p state level => modify fun s =>
    if (s.proc p).state.scheduled ∧ state.scheduled then
      s.updProc p fun q => { q with state := state, level := level }
    else s
  | .tick => modify fun s => { s with ticks := (s.ticks + 1) % 2 ^ 32 }
  | .interfere ops => modify fun s => ops.foldl EnvOp.apply s
  | .script env => modify fun s => { s with env := env }

/-- The states the system reaches from start-up, with the notes of the
run, all of which satisfy `G`. -/
abbrev Runs (G : Mark → Kernel → Prop) : Notes Mark Kernel → Kernel → Prop :=
  Reach G Booted Op.prog

end GemOS
