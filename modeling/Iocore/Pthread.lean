import Iocore.Defs
import Mathlib.Data.List.Basic

/-!
# Mutexes and read-write locks of the thread library

The primitives `lock.h` wraps, with their documented behaviour.  A call
either returns a status, together with the state it leaves, or blocks.  Both
states are built so that a mutex cannot be owned with a hold count of zero and
a read-write lock cannot have a writer next to a reader.
-/

namespace Iocore.Pthread

inductive Status where
  | ok
  | edeadlk
  | ebusy
  | eperm
  | etimedout
  deriving DecidableEq, Repr

variable {Tid : Type} [DecidableEq Tid]

/-! ## Mutexes -/

inductive MutexKind where
  | normal
  | recursive
  | errorcheck
  deriving DecidableEq, Repr

/-- A held mutex was taken once and then taken again `relocks` times. -/
inductive Hold (Tid : Type) where
  | free
  | held (owner : Tid) (relocks : Nat)
  deriving DecidableEq, Repr

structure Mutex (Tid : Type) where
  kind : MutexKind
  hold : Hold Tid
  deriving DecidableEq, Repr

def Hold.owner : Hold Tid → Option Tid
  | .free => none
  | .held owner _ => some owner

def Hold.count : Hold Tid → Nat
  | .free => 0
  | .held _ relocks => relocks + 1

def mutexLock (mutex : Mutex Tid) (i : Tid) : Code (Status × Mutex Tid) :=
  match mutex.hold with
  | .free => .ok (.ok, { mutex with hold := .held i 0 })
  | .held owner relocks =>
      if owner = i then
        match mutex.kind with
        | .recursive => .ok (.ok, { mutex with hold := .held i (relocks + 1) })
        | .errorcheck => .ok (.edeadlk, mutex)
        | .normal => .error .blocked
      else .error .blocked

def mutexTrylock (mutex : Mutex Tid) (i : Tid) : Status × Mutex Tid :=
  match mutex.hold with
  | .free => (.ok, { mutex with hold := .held i 0 })
  | .held owner relocks =>
      if owner = i then
        match mutex.kind with
        | .recursive => (.ok, { mutex with hold := .held i (relocks + 1) })
        | .errorcheck | .normal => (.ebusy, mutex)
      else (.ebusy, mutex)

def mutexBlocks (mutex : Mutex Tid) (i : Tid) : Bool :=
  match mutexLock mutex i with
  | .ok _ => false
  | .error _ => true

def mutexTimedlock (mutex : Mutex Tid) (i : Tid) (expired : Bool) :
    Code (Status × Mutex Tid) :=
  if expired then .ok (.etimedout, mutex) else mutexLock mutex i

/-- Only a normal mutex does not care whether it is held, and by whom. -/
def mutexUnlock (mutex : Mutex Tid) (i : Tid) : Status × Mutex Tid :=
  match mutex.hold with
  | .free => (if mutex.kind = .normal then .ok else .eperm, mutex)
  | .held owner relocks =>
      if owner = i ∨ mutex.kind = .normal then
        match relocks with
        | 0 => (.ok, { mutex with hold := .free })
        | relocks + 1 => (.ok, { mutex with hold := .held owner relocks })
      else (.eperm, mutex)

def condRelease (mutex : Mutex Tid) (i : Tid) : Code (Mutex Tid) :=
  if mutex.hold.owner = some i then .ok (mutexUnlock mutex i).2
  else .error .undefinedBehaviour

/--
The return of `pthread_cond_timedwait` to a thread that is blocked in it: the
thread was woken or its deadline has passed, and it gets the mutex back.
-/
def condTimedwait (mutex : Mutex Tid) (i : Tid) (woken expired : Bool) :
    Code (Status × Mutex Tid) :=
  if woken || expired then do
    let (_, mutex) ← mutexLock mutex i
    return (if woken then .ok else .etimedout, mutex)
  else .error .blocked

/-! ## Read-write locks -/

inductive RWLock (Tid : Type) where
  | readers (holds : List Tid)
  | writer (owner : Tid)
  deriving DecidableEq, Repr

def rwlockRdlock (lock : RWLock Tid) (i : Tid) : Code (Status × RWLock Tid) :=
  match lock with
  | .readers holds => .ok (.ok, .readers (i :: holds))
  | .writer owner =>
      if owner = i then .ok (.edeadlk, lock) else .error .blocked

def rwlockWrlock (lock : RWLock Tid) (i : Tid) : Code (Status × RWLock Tid) :=
  match lock with
  | .readers [] => .ok (.ok, .writer i)
  | .readers _ => .error .blocked
  | .writer owner =>
      if owner = i then .ok (.edeadlk, lock) else .error .blocked

def rwlockUnlock (lock : RWLock Tid) (i : Tid) : Status × RWLock Tid :=
  match lock with
  | .readers holds =>
      if i ∈ holds then (.ok, .readers (holds.erase i)) else (.eperm, lock)
  | .writer owner =>
      if owner = i then (.ok, .readers []) else (.eperm, lock)

end Iocore.Pthread
