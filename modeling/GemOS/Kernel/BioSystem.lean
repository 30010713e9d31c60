/-
The buffer cache as any number of processes use it at once.

A process is in at most one of `bread` and `brelse` at a time, but may
hold several buffers. `BufCall` is where it stands between two sections.
A buffer that is pinned is pinned by nobody in particular; `pins` counts
the `bpin` calls that no `bunpin` has answered yet. No section reads it:
it is there to say which `bunpin` calls the interface allows.
-/
import GemOS.Kernel.Bio

namespace GemOS

open Function Prog

/-- What a process is in the middle of. -/
inductive BufCall
  | idle
  /-- `bread` has counted itself and waits for the sleep lock. -/
  | getting (b : BufId)
  /-- `bread` has the sleep lock and may have to read the block. -/
  | reading (b : BufId)
  /-- `brelse` has given the sleep lock back and not uncounted itself. -/
  | releasing (b : BufId)

structure BufSys where
  cache : Bcache
  call : ProcId → BufCall
  pins : BufId → Nat

abbrev BufM : Type → Type := Prog BufSys Stop Empty

def onCache {α : Type} (x : BioM α) : BufM α :=
  zoom BufSys.cache (fun s c => { s with cache := c }) x

def setCall (t : ProcId) (k : BufCall) : BufM Unit :=
  modify fun s => { s with call := update s.call t k }

def setPins (b : BufId) (n : Nat) : BufM Unit :=
  modify fun s => { s with pins := update s.pins b n }

/-- One section of some process. -/
inductive BufOp
  /-- `bread` begins. -/
  | find (t : ProcId) (dev blockno : Nat)
  | lock (t : ProcId)
  /-- `bread` ends. -/
  | read (t : ProcId)
  /-- The holder changes the contents. -/
  | store (t : ProcId) (b : BufId) (d : Block)
  | write (t : ProcId) (b : BufId)
  /-- `brelse` begins. -/
  | unlock (t : ProcId) (b : BufId)
  /-- `brelse` ends. -/
  | unref (t : ProcId)
  | pin (b : BufId)
  | unpin (b : BufId)

/-- Only a process that is in no call starts one. -/
def whenIdle (t : ProcId) (x : BufM Unit) : BufM Unit := do
  let s ← get
  match s.call t with
  | .idle => x
  | _ => onCache (halt .blocked)

/-- Only the holder of a buffer works on it. -/
def whenHolding (t : ProcId) (b : BufId) (x : BufM Unit) : BufM Unit :=
  whenIdle t do
    let s ← get
    if (s.cache.buf b).lock = some t then x
    else onCache (halt .blocked)

def BufOp.prog : BufOp → BufM Unit
  | .find t dev blockno => whenIdle t do
      let b ← onCache (bget dev blockno)
      setCall t (.getting b)
  | .lock t => do
    let s ← get
    match s.call t with
    | .getting b => do
      onCache (acquiresleep t b)
      setCall t (.reading b)
    | _ => onCache (halt .blocked)
  | .read t => do
    let s ← get
    match s.call t with
    | .reading b => do
      onCache (readIn b)
      setCall t .idle
    | _ => onCache (halt .blocked)
  | .store t b d => whenHolding t b (onCache (storeBuf b d))
  | .write t b => whenHolding t b (onCache (bwrite t b))
  | .unlock t b => whenHolding t b do
      onCache (brelseUnlock t b)
      setCall t (.releasing b)
  | .unref t => do
    let s ← get
    match s.call t with
    | .releasing b => do
      onCache (brelseUnref b)
      setCall t .idle
    | _ => onCache (halt .blocked)
  | .pin b => do
    let s ← get
    onCache (bpin b)
    setPins b (s.pins b + 1)
  | .unpin b => do
    let s ← get
    if s.pins b = 0 then onCache (halt .blocked)
    else
      onCache (bunpin b)
      setPins b (s.pins b - 1)

/-- The cache after `binit`, nobody using it. -/
def BufFresh (s : BufSys) : Prop :=
  (∃ disk power, s.cache = binit disk power) ∧ (∀ t, s.call t = .idle) ∧ ∀ b, s.pins b = 0

/-- The runs of the system. -/
abbrev BufRuns : Notes Empty BufSys → BufSys → Prop :=
  Reach (fun _ _ => True) BufFresh BufOp.prog

end GemOS
