import Iocore.Lock.PThreadMutex
import Iocore.Time

/-!
# The clocks of timed locking and waiting

`Lock(ms)` and `Wait(lock, ms)` take their deadline from `GetTimeSpec`, which
reads the monotonic clock.  The thread library compares it with the real-time
clock: a mutex knows no other, and the condition is created without attributes.
Both calls therefore end too early by as much as the real-time clock is ahead.
-/

namespace Iocore

open Pthread Time

/-- The two clocks at the time of a call; they advance together. -/
structure Clocks where
  monotonic : Reading
  realtime : Reading

def Clocks.reached (clocks : Clocks) (deadline : Timespec) (elapsed : ℕ) : Bool :=
  deadline.toNs ≤ clocks.realtime.toNs + elapsed

variable {Tid : Type} [DecidableEq Tid] (build : Build)

/--
`Lock(ms)`, as it returns or goes on blocking `elapsed` nanoseconds after the
call, when the mutex is in the given state.
-/
def PThreadMutex.lockAt (clocks : Clocks) (mutex : Mutex Tid) (i : Tid)
    (ms : UInt32) (elapsed : ℕ) : Code (Bool × Mutex Tid) := do
  build.assert (ms ≠ 0)
  let t ← getTimeSpec build clocks.monotonic ms
  let expired := mutexBlocks mutex i && clocks.reached t elapsed
  let (status, mutex) ← mutexTimedlock mutex i expired
  invariant (status = .ok || status = .etimedout)
  return (status = .ok, mutex)

def WaitCondition.waitAt (clocks : Clocks) (mutex : Mutex Tid) (i : Tid)
    (ms : UInt32) (woken : Bool) (elapsed : ℕ) : Code (Bool × Mutex Tid) := do
  let t ← getTimeSpec build clocks.monotonic ms
  let (status, mutex) ← condTimedwait mutex i woken (clocks.reached t elapsed)
  build.assert (status = .ok || status = .etimedout)
  return (status = .ok, mutex)

/-! ## When a call reports a timeout -/

def LockTimesOut (clocks : Clocks) (i : Tid) (ms : UInt32) (elapsed : ℕ) : Prop :=
  ∃ mutex mutex', PThreadMutex.lockAt build clocks mutex i ms elapsed =
    .ok (false, mutex')

def WaitTimesOut (clocks : Clocks) (i : Tid) (ms : UInt32) (elapsed : ℕ) : Prop :=
  ∃ mutex woken mutex',
    WaitCondition.waitAt build clocks mutex i ms woken elapsed =
      .ok (false, mutex')

/-- No timeout is reported before `ms` milliseconds have passed. -/
def NeverEarly (ms : UInt32) (timesOut : ℕ → Prop) : Prop :=
  ∀ elapsed, timesOut elapsed → ms.toNat * nsPerMs ≤ elapsed

variable {build} {clocks : Clocks} {mutex mutex' : Mutex Tid} {i : Tid}
  {ms : UInt32} {elapsed : ℕ}

theorem Clocks.reached_iff : clocks.reached
      (add clocks.monotonic.toTimespec ms) elapsed = true ↔
    deadline clocks.monotonic.toNs ms ≤ clocks.realtime.toNs + elapsed := by
  rw [reached, decide_eq_true_iff, add_toNs]

theorem PThreadMutex.lockAt_eq :
    lockAt build clocks mutex i ms elapsed = lockFor build mutex i ms
      (mutexBlocks mutex i &&
        clocks.reached (add clocks.monotonic.toTimespec ms) elapsed) := by
  rw [lockAt, getTimeSpec_eq]
  rfl

theorem mutexLock_ne_etimedout : mutexLock mutex i ≠ .ok (.etimedout, mutex') := by
  unfold mutexLock
  split
  · simp
  · split
    · split <;> simp
    · simp

theorem PThreadMutex.expired_of_lockFor {expired : Bool}
    (h : lockFor build mutex i ms expired = .ok (false, mutex')) :
    expired = true := by
  by_contra hexpired
  simp only [lockFor, mutexTimedlock, if_neg hexpired, Code.bind_eq_ok] at h
  obtain ⟨-, -, ⟨status, locked⟩, hlock, ⟨⟩, hchecked, hresult⟩ := h
  cases status with
  | ok => cases hresult
  | etimedout => exact mutexLock_ne_etimedout hlock
  | edeadlk | ebusy | eperm => cases hchecked

theorem expired_of_condTimedwait {woken expired : Bool} {status : Status}
    (h : condTimedwait mutex i woken expired = .ok (status, mutex'))
    (hstatus : status ≠ .ok) : expired = true := by
  cases woken with
  | false =>
      by_contra hexpired
      simp [condTimedwait, hexpired] at h
  | true =>
      simp only [condTimedwait, Bool.true_or, if_true, Code.bind_eq_ok] at h
      obtain ⟨locked, -, hresult⟩ := h
      cases hresult
      exact absurd rfl hstatus

theorem WaitCondition.waitAt_eq {woken : Bool} :
    waitAt build clocks mutex i ms woken elapsed = do
      let (status, mutex) ← condTimedwait mutex i woken
        (clocks.reached (add clocks.monotonic.toTimespec ms) elapsed)
      build.assert (status = .ok || status = .etimedout)
      return (status = .ok, mutex) := by
  rw [waitAt, getTimeSpec_eq]
  rfl

theorem lockTimesOut_iff (hms : ms ≠ 0) :
    LockTimesOut build clocks i ms elapsed ↔
      deadline clocks.monotonic.toNs ms ≤ clocks.realtime.toNs + elapsed := by
  rw [← Clocks.reached_iff]
  constructor
  · rintro ⟨mutex, mutex', h⟩
    rw [PThreadMutex.lockAt_eq] at h
    have hexpired := PThreadMutex.expired_of_lockFor h
    exact (Bool.and_eq_true_iff.mp hexpired).2
  · intro hreached
    -- a mutex of the normal kind that its owner locks once more
    refine ⟨⟨.normal, .held i 0⟩, ⟨.normal, .held i 0⟩, ?_⟩
    rw [PThreadMutex.lockAt_eq, hreached]
    simp [PThreadMutex.lockFor, hms, mutexBlocks, mutexLock, mutexTimedlock,
      invariant, pure, Except.pure]

theorem waitTimesOut_iff :
    WaitTimesOut build clocks i ms elapsed ↔
      deadline clocks.monotonic.toNs ms ≤ clocks.realtime.toNs + elapsed := by
  rw [← Clocks.reached_iff]
  constructor
  · rintro ⟨mutex, woken, mutex', h⟩
    rw [WaitCondition.waitAt_eq] at h
    simp only [Code.bind_eq_ok] at h
    obtain ⟨⟨status, locked⟩, hwait, ⟨⟩, -, hresult⟩ := h
    refine expired_of_condTimedwait hwait ?_
    rintro rfl
    cases hresult
  · intro hreached
    refine ⟨⟨.normal, .free⟩, false, ⟨.normal, .held i 0⟩, ?_⟩
    rw [WaitCondition.waitAt_eq, hreached]
    simp [condTimedwait, mutexLock, pure, Except.pure]

/-! ## How far the clocks are apart -/

theorem neverEarly_iff {timesOut : ℕ → Prop} (hms : ms ≠ 0)
    (htimesOut : ∀ elapsed, timesOut elapsed ↔
      deadline clocks.monotonic.toNs ms ≤ clocks.realtime.toNs + elapsed) :
    NeverEarly ms timesOut ↔ clocks.realtime.toNs ≤ clocks.monotonic.toNs := by
  have hpos : 0 < ms.toNat * nsPerMs :=
    Nat.mul_pos (Nat.pos_of_ne_zero fun h => hms (UInt32.toNat_inj.mp h))
      (by decide)
  simp only [NeverEarly, htimesOut]
  unfold deadline
  constructor
  · intro hnever
    -- the earliest moment at which the deadline is reached
    have hearliest := hnever (clocks.monotonic.toNs + ms.toNat * nsPerMs -
      clocks.realtime.toNs) (by omega)
    omega
  · intro hclocks elapsed hreached
    omega

/--
Neither timed call reports a timeout too early, whatever the other threads do,
precisely when the real-time clock is not ahead of the monotonic one.
-/
theorem timedCalls_neverEarly_iff (build : Build) (clocks : Clocks) (i : Tid)
    {ms : UInt32} (hms : 1 ≤ ms) :
    (NeverEarly ms (LockTimesOut build clocks i ms) ↔
        clocks.realtime.toNs ≤ clocks.monotonic.toNs) ∧
      (NeverEarly ms (WaitTimesOut build clocks i ms) ↔
        clocks.realtime.toNs ≤ clocks.monotonic.toNs) := by
  have hne : ms ≠ 0 := by
    rintro rfl
    exact absurd hms (by decide)
  exact ⟨neverEarly_iff hne fun _ => lockTimesOut_iff hne,
    neverEarly_iff hne fun _ => waitTimesOut_iff⟩

def afterBoot : Clocks where
  monotonic := ⟨⟨10, 0⟩, by decide, by decide⟩
  realtime := ⟨⟨1000000000, 0⟩, by decide, by decide⟩

theorem timedCalls_neverEarly_iff_afterBoot :
    (NeverEarly 500 (LockTimesOut defaultBuild afterBoot (0 : Fin 2) 500) ↔
        afterBoot.realtime.toNs ≤ afterBoot.monotonic.toNs) ∧
      (NeverEarly 500 (WaitTimesOut defaultBuild afterBoot (0 : Fin 2) 500) ↔
        afterBoot.realtime.toNs ≤ afterBoot.monotonic.toNs) :=
  timedCalls_neverEarly_iff defaultBuild afterBoot 0 (by decide)

theorem timedCalls_not_neverEarly :
    ¬ ∀ (clocks : Clocks) (ms : UInt32), 1 ≤ ms →
      NeverEarly ms (LockTimesOut defaultBuild clocks (0 : Fin 2) ms) ∧
        NeverEarly ms (WaitTimesOut defaultBuild clocks (0 : Fin 2) ms) := by
  intro h
  obtain ⟨hlock, -⟩ := h afterBoot 500 (by decide)
  have hreached : afterBoot.reached (add afterBoot.monotonic.toTimespec 500) 0 =
      true := Clocks.reached_iff.mpr (by decide)
  have htimesOut : LockTimesOut defaultBuild afterBoot (0 : Fin 2) 500 0 := by
    refine ⟨⟨.recursive, .held 1 0⟩, ⟨.recursive, .held 1 0⟩, ?_⟩
    rw [PThreadMutex.lockAt_eq, hreached]
    rfl
  exact absurd (hlock 0 htimesOut) (by decide)

end Iocore
