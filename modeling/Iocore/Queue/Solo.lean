import Iocore.Queue.Locking

/-!
# A consumer that runs alone

When the lock is free and the container empty, a thread that calls `Pop` and
is not disturbed spins to the end of `TryPop`, takes the lock once more, and
goes to sleep.  Nothing but its own control point is different afterwards.
-/

namespace Iocore.Queue

open Foundation Foundation.System Pthread

variable {S T Tid : Type} [DecidableEq Tid] (build : Build) {v : Variant S T}
  {s : State Tid S T} {i : Tid}

theorem solo_lock (free : s.lock.hold = PThreadMutex.single none) {pc next : Pc T}
    (hcode : code v.maxSpin pc = .lock next) :
    advance build v (s.goto i pc) i = .ok ((s.taken i).goto i next) := by
  have hlock : PThreadMutex.lock build s.lock i =
      .ok { s.lock with hold := .held i 0 } :=
    PThreadMutex.lock_single build free nofun
  simp only [advance, State.goto_pc_self, hcode, State.goto_lock, hlock,
    Code.ok_bind]
  change Except.ok (((s.taken i).goto i pc).goto i next) = _
  rw [State.goto_goto]

theorem solo_lockFor (free : s.lock.hold = PThreadMutex.single none)
    {pc next expired : Pc T} {ms : UInt32} (hms : ms ≠ 0)
    (hcode : code v.maxSpin pc = .lockFor ms next expired) :
    advance build v (s.goto i pc) i = .ok ((s.taken i).goto i next) := by
  have hlock : PThreadMutex.lockFor build s.lock i ms false =
      .ok (true, { s.lock with hold := .held i 0 }) := by
    rw [PThreadMutex.lockFor, mutexTimedlock, if_neg (by simp),
      PThreadMutex.mutexLock_single free (by simp)]
    simp [hms, invariant, pure, Except.pure]
  simp only [advance, State.goto_pc_self, hcode, State.goto_lock, hlock,
    Code.ok_bind, if_true]
  change Except.ok (((s.taken i).goto i pc).goto i next) = _
  rw [State.goto_goto]

theorem solo_miss (hempty : v.container.isEmpty s.container = true)
    {pc empty : Pc T} {popped : T → Pc T}
    (hcode : code v.maxSpin pc = .pop empty popped) :
    advance build v ((s.taken i).goto i pc) i =
      .ok ((s.taken i).goto i empty) := by
  have htaken : v.container.isEmpty (s.taken i).container = true := hempty
  simp only [advance, State.goto_pc_self, hcode, State.goto_container, htaken,
    if_true, State.goto_goto]

theorem solo_release (free : s.lock.hold = PThreadMutex.single none)
    {pc next : Pc T}
    (hcode : code v.maxSpin pc = .unlock next ∨
      code v.maxSpin pc = .wait next) :
    advance build v ((s.taken i).goto i pc) i = .ok (s.goto i next) := by
  have hold : (s.taken i).lock.hold = PThreadMutex.single (some i) := rfl
  have hfree : { (s.taken i).lock with hold := .free } = s.lock := by
    change { s.lock with hold := PThreadMutex.single none } = s.lock
    rw [← free]
  rcases hcode with hcode | hcode
  · simp only [advance, State.goto_pc_self, hcode, State.goto_lock,
      PThreadMutex.unlock_single build hold, Code.ok_bind, hfree]
    exact congrArg _ (State.goto_goto ..)
  · simp only [advance, State.goto_pc_self, hcode, State.goto_lock,
      PThreadMutex.condRelease_single hold, Code.ok_bind, hfree]
    exact congrArg _ (State.goto_goto ..)

variable [Fintype Tid]

private theorem solo_next {s s' : State Tid S T}
    (run : (system build v Tid).Reachable s)
    (step : advance build v s i = .ok s') : (system build v Tid).Reachable s' :=
  run.next (show (system build v Tid).step s (.next i) s' from step)

private theorem solo_test {s : State Tid S T}
    (free : s.lock.hold = PThreadMutex.single none)
    (hempty : v.container.isEmpty s.container = true)
    {pc test miss next : Pc T} {popped : T → Pc T}
    (hlock : advance build v (s.goto i pc) i = .ok ((s.taken i).goto i test))
    (htest : code v.maxSpin test = .pop miss popped)
    (hmiss : code v.maxSpin miss = .unlock next ∨
      code v.maxSpin miss = .wait next)
    (run : (system build v Tid).Reachable (s.goto i pc)) :
    (system build v Tid).Reachable (s.goto i next) := by
  have hlocked := solo_next build run hlock
  have hmissed := solo_next build hlocked (solo_miss build hempty htest)
  exact solo_next build hmissed (solo_release build free hmiss)

theorem spins_out (free : s.lock.hold = PThreadMutex.single none)
    (hempty : v.container.isEmpty s.container = true) (kind : PopKind)
    (n k : Nat) (hk : k + n = v.maxSpin)
    (run : (system build v Tid).Reachable
      (s.goto i (spinFrom v.maxSpin kind k))) :
    (system build v Tid).Reachable (s.goto i (.popLock kind)) := by
  induction n generalizing k with
  | zero =>
      have hout : (spinFrom v.maxSpin kind k : Pc T) = .popLock kind :=
        if_neg (by omega)
      rwa [hout] at run
  | succ n ih =>
      have hspin : (spinFrom v.maxSpin kind k : Pc T) = .spinLock kind k :=
        if_pos (by omega)
      rw [hspin] at run
      have hyield : advance build v (s.goto i (.spinYield kind k)) i =
          .ok (s.goto i (spinFrom v.maxSpin kind (k + 1))) := by
        simp only [advance, State.goto_pc_self, code, State.goto_goto]
      have htested : (system build v Tid).Reachable
          (s.goto i (.spinYield kind k)) :=
        solo_test build free hempty (solo_lock build free rfl) rfl (.inl rfl) run
      exact ih (k + 1) (by omega) (solo_next build htested hyield)

theorem pop_falls_asleep (free : s.lock.hold = PThreadMutex.single none)
    (hempty : v.container.isEmpty s.container = true) {result : Result T}
    (hidle : s.pc i = .idle result) (run : (system build v Tid).Reachable s) :
    (system build v Tid).Reachable (s.goto i (.popAsleep .untimed)) := by
  have hcall : exec build v s (.call i (.pop .untimed)) =
      .ok (s.goto i (spinFrom v.maxSpin .untimed 0)) := by
    simp only [exec, hidle, Call.entry]
  have hspun := spins_out build free hempty .untimed v.maxSpin 0 (by omega)
    (run.next (show (system build v Tid).step s _ _ from hcall))
  exact solo_test build free hempty (solo_lock build free rfl) rfl (.inr rfl)
    hspun

theorem timedPop_falls_asleep (free : s.lock.hold = PThreadMutex.single none)
    (hempty : v.container.isEmpty s.container = true) {result : Result T}
    (hidle : s.pc i = .idle result) {ms : UInt32} (hms : ms ≠ 0)
    (offered : v.timedPop = true) (run : (system build v Tid).Reachable s) :
    (system build v Tid).Reachable (s.goto i (.popAsleep (.timed ms))) := by
  have hcall : exec build v s (.call i (.pop (.timed ms))) =
      .ok (s.goto i (spinFrom v.maxSpin (.timed ms) 0)) := by
    simp only [exec, hidle, Call.entry, offered, if_true]
  have hspun := spins_out build free hempty (.timed ms) v.maxSpin 0 (by omega)
    (run.next (show (system build v Tid).step s _ _ from hcall))
  exact solo_test build free hempty (solo_lockFor build free hms rfl) rfl
    (.inr rfl) hspun

end Iocore.Queue
