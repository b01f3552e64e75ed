import Iocore.Pthread

/-!
# The mutex class

`PThreadMutex` wraps a mutex of the thread library.  Its constructor asks for
a recursive mutex unless told otherwise, and under `ERROR_CHECK` it overrides
either choice with an error-checking one.
-/

namespace Iocore.PThreadMutex

open Pthread

variable {Tid : Type} [DecidableEq Tid] (build : Build)

def kind (isRecursive : Bool) : MutexKind :=
  if build.errorCheck then .errorcheck
  else if isRecursive then .recursive
  else .normal

def construct (isRecursive : Bool) : Mutex Tid := ⟨kind build isRecursive, .free⟩

def lock (mutex : Mutex Tid) (i : Tid) : Code (Mutex Tid) := do
  let (status, mutex) ← mutexLock mutex i
  build.assert (status = .ok)
  return mutex

def tryLock (mutex : Mutex Tid) (i : Tid) : Bool × Mutex Tid :=
  let (status, mutex) := mutexTrylock mutex i
  (status = .ok, mutex)

/-- `Lock(ms)`, with whether the deadline passes first. -/
def lockFor (mutex : Mutex Tid) (i : Tid) (ms : UInt32) (expired : Bool) :
    Code (Bool × Mutex Tid) := do
  build.assert (ms ≠ 0)
  let (status, mutex) ← mutexTimedlock mutex i expired
  invariant (status = .ok || status = .etimedout)
  return (status = .ok, mutex)

def unlock (mutex : Mutex Tid) (i : Tid) : Code (Mutex Tid) := do
  let (status, mutex) := mutexUnlock mutex i
  build.assert (status = .ok)
  return mutex

def isOwner (mutex : Mutex Tid) (i : Tid) : Code (Bool × Mutex Tid) := do
  let (status, mutex) ← mutexLock mutex i
  return (status = .edeadlk, mutex)

/-! ## A mutex that its callers hold at most once -/

def single : Option Tid → Hold Tid
  | none => .free
  | some i => .held i 0

variable {mutex mutex' : Mutex Tid} {i : Tid} {owner : Option Tid}

theorem mutexLock_single (hold : mutex.hold = single owner)
    (hother : owner ≠ some i) :
    mutexLock mutex i = if owner = none then
      .ok (.ok, { mutex with hold := .held i 0 }) else .error .blocked := by
  cases owner with
  | none => simp [mutexLock, hold, single]
  | some j =>
      have hne : j ≠ i := fun e => hother (by rw [e])
      simp [mutexLock, hold, single, hne]

theorem lock_single (hold : mutex.hold = single owner) (hother : owner ≠ some i) :
    lock build mutex i = if owner = none then
      .ok { mutex with hold := .held i 0 } else .error .blocked := by
  rw [lock, mutexLock_single hold hother]
  cases owner <;> simp [pure, Except.pure]

theorem lockFor_single (hold : mutex.hold = single owner)
    (hother : owner ≠ some i) {ms : UInt32} {result : Bool × Mutex Tid}
    (h : lockFor build mutex i ms false = .ok result) :
    owner = none ∧ result = (true, { mutex with hold := .held i 0 }) := by
  rw [lockFor, mutexTimedlock, if_neg (by simp),
    mutexLock_single hold hother] at h
  simp only [Code.bind_eq_ok] at h
  obtain ⟨-, -, status, hlock, -, -, hresult⟩ := h
  cases owner with
  | none =>
      cases hlock
      cases hresult
      exact ⟨rfl, rfl⟩
  | some j => simp at hlock

theorem mutexUnlock_single (hold : mutex.hold = single (some i)) :
    mutexUnlock mutex i = (.ok, { mutex with hold := .free }) := by
  simp [mutexUnlock, hold, single]

theorem unlock_single (hold : mutex.hold = single (some i)) :
    unlock build mutex i = .ok { mutex with hold := .free } := by
  rw [unlock, mutexUnlock_single hold]
  simp [pure, Except.pure]

theorem condRelease_single (hold : mutex.hold = single (some i)) :
    condRelease mutex i = .ok { mutex with hold := .free } := by
  rw [condRelease, mutexUnlock_single hold, hold]
  exact if_pos rfl

end Iocore.PThreadMutex
