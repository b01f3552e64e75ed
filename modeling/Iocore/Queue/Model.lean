import Iocore.Foundation.System
import Iocore.Foundation.Threads
import Iocore.Lock.PThreadMutex
import Iocore.Queue.Sequential

/-!
# The queue classes

Threads call the members of one queue.  Each member is a small program over
the queue's lock, its container and its condition; a control point says which
statement of the program a thread executes next.  What is done between
acquiring and releasing the lock without touching them is one step.

`Queue` and `InQueue` are the same programs: `Queue` never spins and has no
timed `Pop`.  `Pop` is left by its thread in one more way, when a deferred
cancellation takes effect in the wait for the condition: the thread then gets
the lock back and ends, and as nothing on its stack has a destructor that
releases the lock, it ends with it.
-/

namespace Iocore.Queue

open Foundation Foundation.System Pthread

inductive PopKind where
  | untimed
  | timed (ms : UInt32)
  deriving DecidableEq, Repr

inductive Result (T : Type) where
  | noCall
  | pushed
  | popped (kind : PopKind) (t : Option T)
  | tested (empty : Bool)
  deriving DecidableEq, Repr

inductive Pc (T : Type) where
  | idle (result : Result T)
  | pushLock (t : T)
  | pushStore (t : T)
  | pushUnlock
  | pushSignal
  | spinLock (kind : PopKind) (i : Nat)
  | spinTest (kind : PopKind) (i : Nat)
  | spinHit (kind : PopKind) (t : T)
  | spinMiss (kind : PopKind) (i : Nat)
  | spinYield (kind : PopKind) (i : Nat)
  | popLock (kind : PopKind)
  | popTest (kind : PopKind) (again : Bool)
  | popWait (kind : PopKind)
  | popAsleep (kind : PopKind)
  | popWoken (kind : PopKind)
  | popExpired (ms : UInt32)
  | popGiveUp (ms : UInt32)
  | popUnlock (kind : PopKind) (t : T)
  | emptyLock
  | emptyTest
  | emptyUnlock (empty : Bool)
  | unwind
  | terminated
  deriving DecidableEq, Repr

inductive Instr (T : Type) where
  | none
  | lock (next : Pc T)
  | lockFor (ms : UInt32) (next expired : Pc T)
  | unlock (next : Pc T)
  | push (t : T) (next : Pc T)
  | pop (empty : Pc T) (popped : T → Pc T)
  | isEmpty (next : Bool → Pc T)
  | wait (asleep : Pc T)
  | sleep (woken : Pc T) (expired : Option (Pc T)) (unwinding : Pc T)
  | signal (next : Pc T)
  | yield (next : Pc T)

structure Variant (S T : Type) where
  container : SeqQueue S T
  maxSpin : Nat
  timedPop : Bool

def queue (T : Type) : Variant (List T) T := ⟨stdQueue T, 0, false⟩

def inQueue (build : Build) (T : Type) [DecidableEq T] :
    Variant (Heap T × InList T) T := ⟨inList build, 1000, true⟩

variable {S T : Type}

def spinFrom (maxSpin : Nat) (kind : PopKind) (i : Nat) : Pc T :=
  if i < maxSpin then .spinLock kind i else .popLock kind

def code (maxSpin : Nat) : Pc T → Instr T
  | .idle _ => .none
  -- Push
  | .pushLock t => .lock (.pushStore t)
  | .pushStore t => .push t .pushUnlock
  | .pushUnlock => .unlock .pushSignal
  | .pushSignal => .signal (.idle .pushed)
  -- TryPop
  | .spinLock kind i => .lock (.spinTest kind i)
  | .spinTest kind i => .pop (.spinMiss kind i) (.spinHit kind)
  | .spinHit kind t => .unlock (.idle (.popped kind (some t)))
  | .spinMiss kind i => .unlock (.spinYield kind i)
  | .spinYield kind i => .yield (spinFrom maxSpin kind (i + 1))
  -- Pop
  | .popLock .untimed => .lock (.popTest .untimed false)
  | .popLock (.timed ms) =>
      .lockFor ms (.popTest (.timed ms) false)
        (.idle (.popped (.timed ms) none))
  | .popTest kind _ => .pop (.popWait kind) (.popUnlock kind)
  | .popWait kind => .wait (.popAsleep kind)
  | .popAsleep .untimed => .sleep (.popWoken .untimed) none .unwind
  | .popAsleep (.timed ms) =>
      .sleep (.popWoken (.timed ms)) (some (.popExpired ms)) .unwind
  | .popWoken kind => .lock (.popTest kind true)
  | .popExpired ms => .lock (.popGiveUp ms)
  | .popGiveUp ms => .unlock (.idle (.popped (.timed ms) none))
  | .popUnlock kind t => .unlock (.idle (.popped kind (some t)))
  -- IsEmpty
  | .emptyLock => .lock .emptyTest
  | .emptyTest => .isEmpty .emptyUnlock
  | .emptyUnlock empty => .unlock (.idle (.tested empty))
  -- the end of a thread that was cancelled in its wait
  | .unwind => .lock .terminated
  | .terminated => .none

inductive Call (T : Type) where
  | push (t : T)
  | pop (kind : PopKind)
  | isEmpty
  deriving DecidableEq, Repr

def Call.entry (v : Variant S T) : Call T → Option (Pc T)
  | .push t => some (.pushLock t)
  | .pop .untimed => some (spinFrom v.maxSpin .untimed 0)
  | .pop (.timed ms) =>
      if v.timedPop then some (spinFrom v.maxSpin (.timed ms) 0) else none
  | .isEmpty => some .emptyLock

/-- `pending` records the cancellation requests of each thread. -/
@[ext]
structure State (Tid S T : Type) where
  lock : Mutex Tid
  container : S
  pc : Tid → Pc T
  pending : Tid → Bool

/--
`expire` is the end of a timed lock or a timed wait, `wake` a spurious
wake-up, and `signal` names the threads that the signal wakes.
-/
inductive Action (Tid T : Type) where
  | call (i : Tid) (c : Call T)
  | next (i : Tid)
  | expire (i : Tid)
  | wake (i : Tid)
  | signal (i : Tid) (woken : List Tid)
  | cancel (i : Tid)
  | cancelAct (i : Tid)
  deriving DecidableEq, Repr

def Pc.isIdle : Pc T → Bool
  | .idle _ => true
  | _ => false

def Pc.wake : Pc T → Pc T
  | .popAsleep kind => .popWoken kind
  | pc => pc

def Pc.asleep : Pc T → Bool
  | .popAsleep _ => true
  | _ => false

variable {Tid : Type} [DecidableEq Tid]

def initial (build : Build) (v : Variant S T) (Tid : Type) : State Tid S T where
  lock := PThreadMutex.construct build true
  container := v.container.initial
  pc _ := .idle .noCall
  pending _ := false

def State.goto (s : State Tid S T) (i : Tid) (pc : Pc T) : State Tid S T :=
  { s with pc := Function.update s.pc i pc }

@[simp] theorem State.goto_pc_self (s : State Tid S T) (i : Tid) (pc : Pc T) :
    (s.goto i pc).pc i = pc := Function.update_self ..

@[simp] theorem State.goto_goto (s : State Tid S T) (i : Tid) (pc pc' : Pc T) :
    (s.goto i pc).goto i pc' = s.goto i pc' := by
  simp [State.goto]

@[simp] theorem State.goto_lock (s : State Tid S T) (i : Tid) (pc : Pc T) :
    (s.goto i pc).lock = s.lock := rfl

@[simp] theorem State.goto_container (s : State Tid S T) (i : Tid) (pc : Pc T) :
    (s.goto i pc).container = s.container := rfl

def State.taken (s : State Tid S T) (i : Tid) : State Tid S T :=
  { s with lock := { s.lock with hold := .held i 0 } }

variable (build : Build) (v : Variant S T)

def advance (s : State Tid S T) (i : Tid) : Code (State Tid S T) :=
  match code v.maxSpin (s.pc i) with
  | .lock next => do
      let lock ← PThreadMutex.lock build s.lock i
      return { s with lock := lock }.goto i next
  | .lockFor ms next expired => do
      let (locked, lock) ← PThreadMutex.lockFor build s.lock i ms false
      return { s with lock := lock }.goto i (if locked then next else expired)
  | .unlock next => do
      let lock ← PThreadMutex.unlock build s.lock i
      return { s with lock := lock }.goto i next
  | .push t next => do
      let container ← v.container.push s.container t
      return { s with container := container }.goto i next
  | .pop empty popped =>
      if v.container.isEmpty s.container then .ok (s.goto i empty)
      else do
        let (t, container) ← v.container.pop s.container
        return { s with container := container }.goto i (popped t)
  | .isEmpty next =>
      .ok (s.goto i (next (v.container.isEmpty s.container)))
  | .wait asleep => do
      let lock ← condRelease s.lock i
      return { s with lock := lock }.goto i asleep
  | .yield next => .ok (s.goto i next)
  | .none | .sleep _ _ _ | .signal _ => .error .blocked

def expire (s : State Tid S T) (i : Tid) : Code (State Tid S T) :=
  match code v.maxSpin (s.pc i) with
  | .lockFor ms next expired => do
      let (locked, lock) ← PThreadMutex.lockFor build s.lock i ms true
      return { s with lock := lock }.goto i (if locked then next else expired)
  | .sleep _ (some expired) _ => .ok (s.goto i expired)
  | _ => .error .blocked

variable [Fintype Tid]

/-- A signal wakes waiting threads only, and at least one if there is any. -/
def Wakes (s : State Tid S T) (woken : List Tid) : Prop :=
  (∀ j ∈ woken, (s.pc j).asleep = true) ∧
    (woken = [] → ∀ j, (s.pc j).asleep = false)

instance (s : State Tid S T) (woken : List Tid) : Decidable (Wakes s woken) :=
  inferInstanceAs (Decidable (_ ∧ (_ → _)))

def wakeAll (pc : Tid → Pc T) (woken : List Tid) : Tid → Pc T :=
  fun j => if j ∈ woken then (pc j).wake else pc j

def exec (s : State Tid S T) : Action Tid T → Code (State Tid S T)
  | .call i c =>
      match s.pc i, c.entry v with
      | .idle _, some pc => .ok (s.goto i pc)
      | _, _ => .error .blocked
  | .next i => advance build v s i
  | .expire i => expire build v s i
  | .wake i =>
      match code v.maxSpin (s.pc i) with
      | .sleep woken _ _ => .ok (s.goto i woken)
      | _ => .error .blocked
  | .signal i woken =>
      match code v.maxSpin (s.pc i) with
      | .signal next =>
          if Wakes s woken then
            .ok ({ s with pc := wakeAll s.pc woken }.goto i next)
          else .error .blocked
      | _ => .error .blocked
  | .cancel i => .ok { s with pending := Function.update s.pending i true }
  | .cancelAct i =>
      match code v.maxSpin (s.pc i) with
      | .sleep _ _ unwinding =>
          if s.pending i then .ok (s.goto i unwinding) else .error .blocked
      | _ => .error .blocked

def system (Tid : Type) [DecidableEq Tid] [Fintype Tid] :
    System (State Tid S T) (Action Tid T) :=
  .ofFunction (fun s => s = initial build v Tid) (exec build v)

end Iocore.Queue
