import Iocore.Foundation.System
import Iocore.Lock.PThreadMutex

/-!
# Asking a mutex who owns it

`PThreadMutex::IsOwner` tries to take the lock and answers whether that was
refused as a deadlock.  Only an error-checking mutex refuses its owner so, and
only the constructor under `ERROR_CHECK` makes one.  Every other call takes
the lock, takes it once more, or blocks.

The threads of the system call `Lock`, `TryLock`, `Unlock` and `IsOwner` in
any order.  A call is a step when it returns.
-/

namespace Iocore.PThreadMutex

open Pthread Foundation

variable {Tid : Type} [DecidableEq Tid]

inductive Call where
  | lock
  | tryLock
  | unlock
  | isOwner
  deriving DecidableEq, Repr

def exec (build : Build) (mutex : Mutex Tid) : Tid × Call → Code (Mutex Tid)
  | (i, .lock) => lock build mutex i
  | (i, .tryLock) => .ok (tryLock mutex i).2
  | (i, .unlock) => unlock build mutex i
  | (i, .isOwner) => do
      let (_, mutex) ← isOwner mutex i
      return mutex

def system (build : Build) (isRecursive : Bool) (Tid : Type)
    [DecidableEq Tid] : System (Mutex Tid) (Tid × Call) :=
  .ofFunction (· = construct build isRecursive) (exec build)

/-! ## No call changes the kind of the mutex -/

theorem mutexLock_kind {mutex mutex' : Mutex Tid} {i : Tid} {status : Status}
    (h : mutexLock mutex i = .ok (status, mutex')) : mutex'.kind = mutex.kind := by
  unfold mutexLock at h
  split at h
  · cases h
    rfl
  · split at h
    · split at h <;> cases h <;> rfl
    · cases h

theorem mutexTrylock_kind (mutex : Mutex Tid) (i : Tid) :
    (mutexTrylock mutex i).2.kind = mutex.kind := by
  unfold mutexTrylock
  split
  · rfl
  · split
    · split <;> rfl
    · rfl

theorem mutexUnlock_kind (mutex : Mutex Tid) (i : Tid) :
    (mutexUnlock mutex i).2.kind = mutex.kind := by
  unfold mutexUnlock
  split
  · rfl
  · split
    · split <;> rfl
    · rfl

theorem exec_kind {build : Build} {mutex mutex' : Mutex Tid} {label : Tid × Call}
    (h : exec build mutex label = .ok mutex') : mutex'.kind = mutex.kind := by
  obtain ⟨i, call⟩ := label
  cases call with
  | lock =>
      simp only [exec, lock, Code.bind_eq_ok] at h
      obtain ⟨result, hlock, -, -, hresult⟩ := h
      cases hresult
      exact mutexLock_kind hlock
  | tryLock =>
      cases h
      exact mutexTrylock_kind mutex i
  | unlock =>
      simp only [exec, unlock, Code.bind_eq_ok] at h
      obtain ⟨-, -, hresult⟩ := h
      cases hresult
      exact mutexUnlock_kind mutex i
  | isOwner =>
      simp only [exec, isOwner, Code.bind_eq_ok] at h
      obtain ⟨result, ⟨locked, hlock, hasked⟩, hresult⟩ := h
      cases hasked
      cases hresult
      exact mutexLock_kind hlock

theorem kind_inductive (build : Build) (isRecursive : Bool) :
    (system build isRecursive Tid).Inductive
      fun mutex => mutex.kind = kind build isRecursive where
  init h := h ▸ rfl
  step h hstep := (exec_kind hstep).trans h

/-! ## The query -/

/-- `IsOwner` returns, answers the question, and changes nothing. -/
def PureAndExact (mutex : Mutex Tid) (i : Tid) : Prop :=
  ∃ answer mutex', isOwner mutex i = .ok (answer, mutex') ∧
    (answer = true ↔ mutex.hold.owner = some i) ∧
    mutex'.hold.owner = mutex.hold.owner ∧
    mutex'.hold.count = mutex.hold.count

theorem isOwner_free {mutex : Mutex Tid} (hold : mutex.hold = .free) (i : Tid) :
    isOwner mutex i = .ok (false, { mutex with hold := .held i 0 }) := by
  simp [isOwner, mutexLock, hold, pure, Except.pure]

theorem isOwner_other {mutex : Mutex Tid} {i owner : Tid} {relocks : Nat}
    (hold : mutex.hold = .held owner relocks) (hother : owner ≠ i) :
    isOwner mutex i = .error .blocked := by
  simp [isOwner, mutexLock, hold, hother]

theorem isOwner_self {mutex : Mutex Tid} {i : Tid} {relocks : Nat}
    (hold : mutex.hold = .held i relocks) :
    isOwner mutex i = match mutex.kind with
      | .recursive =>
          .ok (false, { mutex with hold := .held i (relocks + 1) })
      | .errorcheck => .ok (true, mutex)
      | .normal => .error .blocked := by
  cases hkind : mutex.kind <;>
    simp [isOwner, mutexLock, hold, hkind, pure, Except.pure]

theorem pureAndExact_iff (mutex : Mutex Tid) (i : Tid) :
    PureAndExact mutex i ↔
      mutex.kind = .errorcheck ∧ mutex.hold.owner = some i := by
  cases hold : mutex.hold with
  | free =>
      simp [PureAndExact, isOwner_free hold, hold, Hold.owner]
  | held owner relocks =>
      by_cases hother : owner = i
      · subst hother
        cases hkind : mutex.kind <;>
          simp [PureAndExact, isOwner_self hold, hkind, hold, Hold.owner,
            Hold.count]
      · simp [PureAndExact, isOwner_other hold hother, Hold.owner, hother]

theorem kind_eq_errorcheck {build : Build} {isRecursive : Bool} :
    kind build isRecursive = .errorcheck ↔ build.errorCheck = true := by
  cases hcheck : build.errorCheck <;> cases isRecursive <;> simp [kind, hcheck]

/--
In every state that calls of any threads lead to, the query is pure and exact
precisely for the owner of a mutex that was built with `ERROR_CHECK`.
-/
theorem isOwner_pureAndExact_iff {build : Build} {isRecursive : Bool}
    {mutex : Mutex Tid} (run : (system build isRecursive Tid).Reachable mutex)
    (i : Tid) :
    PureAndExact mutex i ↔
      build.errorCheck = true ∧ mutex.hold.owner = some i := by
  rw [pureAndExact_iff, (kind_inductive build isRecursive).reachable run,
    kind_eq_errorcheck]

theorem isOwner_not_pureAndExact :
    ¬ ∀ (build : Build) (isRecursive : Bool) (mutex : Mutex (Fin 2)) (i : Fin 2),
      (system build isRecursive (Fin 2)).Reachable mutex →
        PureAndExact mutex i := by
  intro exact
  obtain ⟨answer, mutex', hcall, -, howner, -⟩ :=
    exact defaultBuild true _ 0 (.start rfl)
  cases hcall
  exact absurd howner (by decide)

theorem isOwner_pureAndExact_owner :
    (system ⟨true, true⟩ true (Fin 2)).Reachable ⟨.errorcheck, .held 0 0⟩ ∧
      PureAndExact (⟨.errorcheck, .held 0 0⟩ : Mutex (Fin 2)) 0 := by
  have run : (system ⟨true, true⟩ true (Fin 2)).Reachable
      ⟨.errorcheck, .held 0 0⟩ :=
    (System.Reachable.start rfl).next
      (show (system ⟨true, true⟩ true (Fin 2)).step
        (construct ⟨true, true⟩ true) (0, .lock) _ from rfl)
  exact ⟨run, (isOwner_pureAndExact_iff run 0).mpr (by decide)⟩

end Iocore.PThreadMutex
