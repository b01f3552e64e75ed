import Iocore.Foundation.System
import Iocore.PerfCounter.Model
import Iocore.Thread.Slabs

/-!
# The life of a thread object

`Start` creates the thread, `ThFn` wraps its `ThreadMain` between
`ThreadCtx::Init` and `ThreadCtx::Cleanup`, and `Join`, `Destroy` and the
destructor follow.  A statement that cancellation cannot interrupt is one step.
A deferred cancellation takes effect where the code logs, since that may write
to a file, and anywhere in `ThreadMain`; it ends the thread on the spot, and
its thread-local variables are then out of reach.
-/

namespace Iocore.Thread

open Foundation Foundation.System

def GC_TIMEOUT_MS : UInt64 := 1000

def elapsed (endTime startTime : UInt64) : UInt64 :=
  if endTime > startTime then endTime - startTime else 0

inductive Pc where
  | notCreated
  | disableForInit
  | init
  | enableForMain
  | threadMain
  | gcKicked (nowInMilliSec : UInt64)
  | gcReclaimed
  | disableForCleanup
  | cleanup
  | enableForReturn
  | returned
  | cancelled
  deriving DecidableEq, Repr

namespace Pc

def inThreadMain : Pc → Bool
  | .threadMain | .gcKicked _ | .gcReclaimed => true
  | _ => false

def cancellationPoint (pc : Pc) : Bool :=
  pc.inThreadMain || pc = .init || pc = .cleanup

def ended (pc : Pc) : Bool := pc = .returned || pc = .cancelled

end Pc

inductive Lifetime where
  | constructed
  | started
  | joined
  | destructed
  deriving DecidableEq, Repr

/--
A `Thread` object and the thread-local variables of its thread: `tinst` says
whether `tinst_` points to the object.
-/
structure State (B : Type) where
  object : Lifetime
  ctxPool : Option Nat
  pc : Pc
  cancelEnabled : Bool
  cancelRequested : Bool
  tinst : Bool
  pool : Option Nat
  lastInMilliSec : Option UInt64
  statGC : PerfCounter
  memory : Memory B

/--
What the thread, its creator and the library do.  `add`, `take`,
`setCancelState`, `garbageCollect` and `returnMain` are up to `ThreadMain`;
`garbageCollect` carries the reading that would initialise `lastInMilliSec` and
the one compared with it.
-/
inductive Action (B : Type) where
  | start
  | next
  | add (i : Fin SLAB_DEPTH) (buffer : B)
  | take (i : Fin SLAB_DEPTH) (buffer : B)
  | setCancelState (enabled : Bool)
  | garbageCollect (first now : UInt64)
  | returnMain
  | cancel
  | actOnCancel
  | join
  | destroy
  | destruct
  deriving DecidableEq, Repr

variable {B : Type} [DecidableEq B]

def initial (B : Type) : State B where
  object := .constructed
  ctxPool := none
  pc := .notCreated
  cancelEnabled := true
  cancelRequested := false
  tinst := false
  pool := none
  lastInMilliSec := none
  statGC := PerfCounter.construct
  memory := Memory.fresh

/-! ## `ThreadCtx` -/

def init (s : State B) : Code (State B) := do
  invariant s.pool.isNone
  invariant (!s.tinst)
  let (pool, memory) := s.memory.newPool
  return { s with
    tinst := true
    pool := some pool
    ctxPool := some pool
    memory := memory
    pc := .enableForMain }

def cleanup (s : State B) : Code (State B) := do
  let ctxPool := if s.tinst then none else s.ctxPool
  let memory ← cleanupPool s.memory s.pool
  return { s with
    tinst := false
    ctxPool := ctxPool
    pool := none
    memory := memory
    pc := .enableForReturn }

def garbageCollect (s : State B) (first now : UInt64) : Code (State B) := do
  invariant s.tinst
  invariant s.pool.isSome
  let lastInMilliSec := s.lastInMilliSec.getD first
  let kicked := elapsed now lastInMilliSec > GC_TIMEOUT_MS
  return { s with
    lastInMilliSec := some lastInMilliSec
    pc := if kicked then .gcKicked now else s.pc }

def gcSweep (s : State B) (nowInMilliSec : UInt64) : Code (State B) := do
  let pool ← deref s.pool
  let (memory, bytes) ← collect s.memory pool
  let statGC ← s.statGC.update bytes.toUInt32
  return { s with
    statGC := statGC
    lastInMilliSec := some nowInMilliSec
    memory := memory
    pc := .gcReclaimed }

/-! ## `ThreadMain` -/

def add (s : State B) (i : Fin SLAB_DEPTH) (buffer : B) : Code (State B) := do
  let pool ← deref s.pool
  let slabs ← s.memory.slabs pool
  if s.memory.freed buffer = 0 ∧ ∀ j, buffer ∉ slabs j then
    let memory ← s.memory.setSlab pool i (buffer :: slabs i)
    return { s with memory := memory }
  else .error .blocked

def take (s : State B) (i : Fin SLAB_DEPTH) (buffer : B) :
    Code (State B) := do
  let pool ← deref s.pool
  let slabs ← s.memory.slabs pool
  if buffer ∈ slabs i then
    let memory ← s.memory.setSlab pool i ((slabs i).erase buffer)
    return { s with memory := memory }
  else .error .blocked

/-! ## `Thread` -/

def advance (s : State B) : Code (State B) :=
  match s.pc with
  | .disableForInit => .ok { s with cancelEnabled := false, pc := .init }
  | .init => init s
  | .enableForMain => .ok { s with cancelEnabled := true, pc := .threadMain }
  | .gcKicked nowInMilliSec => gcSweep s nowInMilliSec
  | .gcReclaimed => .ok { s with pc := .threadMain }
  | .disableForCleanup => .ok { s with cancelEnabled := false, pc := .cleanup }
  | .cleanup => cleanup s
  | .enableForReturn => .ok { s with cancelEnabled := true, pc := .returned }
  | .notCreated | .threadMain | .returned | .cancelled => .error .blocked

def destroy (s : State B) : Code (State B) :=
  match s.ctxPool with
  | none => .ok s
  | some pool => do
      let memory ← cleanupPool s.memory (some pool)
      return { s with ctxPool := none, memory := memory }

def destruct (s : State B) : Code (State B) := do
  let s ← destroy s
  return { s with object := .destructed }

def provided (enabled : Bool) (code : Code (State B)) : Code (State B) :=
  if enabled then code else .error .blocked

def exec (s : State B) : Action B → Code (State B)
  | .start => provided (s.object = .constructed)
      (.ok { s with object := .started, pc := .disableForInit })
  | .next => advance s
  | .add i buffer => provided (s.pc = .threadMain) (add s i buffer)
  | .take i buffer => provided (s.pc = .threadMain) (take s i buffer)
  | .setCancelState enabled => provided (s.pc = .threadMain)
      (.ok { s with cancelEnabled := enabled })
  | .garbageCollect first now => provided (s.pc = .threadMain)
      (garbageCollect s first now)
  | .returnMain => provided (s.pc = .threadMain)
      (.ok { s with pc := .disableForCleanup })
  | .cancel => provided (s.object = .started)
      (.ok { s with cancelRequested := true })
  | .actOnCancel =>
      provided (s.cancelRequested && s.cancelEnabled && s.pc.cancellationPoint)
        (.ok { s with pc := .cancelled })
  | .join => provided (s.object = .started && s.pc.ended)
      (.ok { s with object := .joined })
  | .destroy => provided (s.object = .joined) (destroy s)
  | .destruct => provided (s.object = .joined) (destruct s)

def system (B : Type) [DecidableEq B] : System (State B) (Action B) :=
  .ofFunction (fun s => s = initial B) exec

/-! ## What a history records -/

def initialised (tr : History (State B) (Action B)) : List Nat :=
  observed (fun s a => match s.pc, a with
    | .init, .next => some s.memory.newPool.1
    | _, _ => none) tr

def added : History (State B) (Action B) → B → Bool
  | [], _ => false
  | (_, .add _ b) :: tr, buffer => buffer = b || added tr buffer
  | (_, .take _ b) :: tr, buffer => buffer ≠ b && added tr buffer
  | _ :: tr, buffer => added tr buffer

end Iocore.Thread
