/-
The queries about processes in `sysproc.c`.

Each takes one lock of the table after the other; the model runs the
loops without interference. What is copied out is the result.
-/
import Mathlib.Data.List.FinRange
import GemOS.Kernel.State

namespace GemOS

variable (proc : ProcId → Proc)

/-- The slot at which a loop over `proc[]` breaks off. -/
def firstSlot (found : Proc → Bool) : Option ProcId :=
  (List.finRange nproc).find? fun p => found (proc p)

structure MlfqInfo where
  level : Fin mlfqLevels
  ticks : Fin mlfqLevels → Int
  timesScheduled : Int
  totalSyscalls : Int

def Proc.mlfqInfo (p : Proc) : MlfqInfo := ⟨p.level, p.ticks, p.timesScheduled, p.syscallCount⟩

structure VmStats where
  pageFaults : Int
  pagesEvicted : Int
  pagesSwappedIn : Int
  pagesSwappedOut : Int
  residentPages : Int

def Proc.vmStats (p : Proc) : VmStats :=
  ⟨p.pageFaults, p.pagesEvicted, p.pagesSwappedIn, p.pagesSwappedOut, p.residentPages⟩

def Proc.hasPid (pid : Int) (p : Proc) : Bool := p.pid == pid && p.state != .unused

def sysGetmlfqinfo (pid : Int) : Option MlfqInfo :=
  (firstSlot proc (Proc.hasPid pid)).map fun p => (proc p).mlfqInfo

def sysGetvmstats (pid : Int) : Option VmStats :=
  (firstSlot proc (Proc.hasPid pid)).map fun p => (proc p).vmStats

def sysGetchildsyscount (me : ProcId) (pid : Int) : Int :=
  match firstSlot proc fun p => p.pid == pid && p.parent == some me with
  | none => -1
  | some p => (proc p).syscallCount

end GemOS
