import Iocore.Foundation.Potential
import Iocore.Queue.Locking

/-!
# The steps of a queue

A thread inside a call has only so many statements ahead of it before it
returns, falls asleep or finds the lock taken.  What puts a thread back is a
wake-up: after it the consumer has to test the container again.  A signal may
wake everybody, but each call of `Push` signals once, so its wake-ups can be
charged to the call.
-/

namespace Iocore.Queue

open Foundation Foundation.System

variable {S T Tid : Type}

/--
The statements ahead of a thread, with what the signal of a `Push` costs.  In
`TryPop` each of the rounds left takes four statements, and what follows it
six.
-/
def Pc.ahead (maxSpin signal : Nat) : Pc T → Nat
  | .idle _ | .terminated => 0
  | .pushLock _ => signal + 4
  | .pushStore _ => signal + 3
  | .pushUnlock => signal + 2
  | .pushSignal => signal + 1
  | .spinLock _ i => 4 * (maxSpin - (i + 1)) + 10
  | .spinTest _ i => 4 * (maxSpin - (i + 1)) + 9
  | .spinMiss _ i => 4 * (maxSpin - (i + 1)) + 8
  | .spinYield _ i => 4 * (maxSpin - (i + 1)) + 7
  | .popLock _ | .popWoken _ => 6
  | .popTest _ _ => 5
  | .popWait _ => 4
  | .popAsleep _ => 3
  | .popExpired _ => 2
  | .popGiveUp _ | .spinHit _ _ | .popUnlock _ _ => 1
  | .emptyLock => 3
  | .emptyTest => 2
  | .emptyUnlock _ | .unwind => 1

def AheadTyped (maxSpin signal : Nat) (pc : Pc T) : Instr T → Prop
  | .none => True
  | .lock next | .unlock next | .push _ next | .wait next | .yield next =>
      next.ahead maxSpin signal < pc.ahead maxSpin signal
  | .lockFor _ next expired =>
      next.ahead maxSpin signal < pc.ahead maxSpin signal ∧
        expired.ahead maxSpin signal < pc.ahead maxSpin signal
  | .pop empty popped =>
      empty.ahead maxSpin signal < pc.ahead maxSpin signal ∧
        ∀ t, (popped t).ahead maxSpin signal < pc.ahead maxSpin signal
  | .isEmpty next => ∀ b,
      (next b).ahead maxSpin signal < pc.ahead maxSpin signal
  | .sleep _ expired _ => ∀ next, expired = some next →
      next.ahead maxSpin signal < pc.ahead maxSpin signal
  | .signal next =>
      next.ahead maxSpin signal + signal < pc.ahead maxSpin signal

theorem AheadTyped.of_code {maxSpin : Nat} (signal : Nat) {pc : Pc T}
    {instr : Instr T} (h : code maxSpin pc = instr) :
    AheadTyped maxSpin signal pc instr := by
  subst h
  cases pc with
  | spinYield kind i =>
      change (spinFrom maxSpin kind (i + 1)).ahead maxSpin signal < _
      unfold spinFrom
      split <;> simp only [Pc.ahead] <;> omega
  | popLock kind | popAsleep kind =>
      cases kind <;> simp [code, AheadTyped, Pc.ahead]
  | _ => simp [code, AheadTyped, Pc.ahead]

theorem wake_ahead (maxSpin signal : Nat) (pc : Pc T) :
    pc.wake.ahead maxSpin signal ≤ pc.ahead maxSpin signal + 3 := by
  cases pc <;> simp [Pc.wake, Pc.ahead]

def callBudget (maxSpin signal : Nat) : Nat := 4 * maxSpin + signal + 11

theorem entry_ahead {v : Variant S T} (signal : Nat) {c : Call T} {pc : Pc T}
    (h : c.entry v = some pc) :
    pc.ahead v.maxSpin signal < callBudget v.maxSpin signal := by
  cases entry_entered h <;> simp only [Pc.ahead, callBudget] <;> omega

/-! ## The steps of all threads -/

variable [Fintype Tid]

def ahead (v : Variant S T) (s : State Tid S T) : Nat :=
  total (Pc.ahead v.maxSpin (3 * Fintype.card Tid)) s.pc

def gain (v : Variant S T) (_ : State Tid S T) : Action Tid T → Nat
  | .call _ _ => callBudget v.maxSpin (3 * Fintype.card Tid)
  | .wake _ => 4
  | .cancel _ => 1
  | .next _ | .expire _ | .signal _ _ | .cancelAct _ => 0

theorem total_wakeAll (maxSpin signal : Nat) (pc : Tid → Pc T)
    [DecidableEq Tid] (woken : List Tid) :
    total (Pc.ahead maxSpin signal) (wakeAll pc woken) ≤
      total (Pc.ahead maxSpin signal) pc + 3 * Fintype.card Tid := by
  have hall : ∀ j, (wakeAll pc woken j).ahead maxSpin signal ≤
      (pc j).ahead maxSpin signal + 3 := by
    intro j
    unfold wakeAll
    split
    · exact wake_ahead maxSpin signal (pc j)
    · exact Nat.le_add_right _ _
  calc total (Pc.ahead maxSpin signal) (wakeAll pc woken)
      ≤ ∑ j, ((pc j).ahead maxSpin signal + 3) :=
        Finset.sum_le_sum fun j _ => hall j
    _ = total (Pc.ahead maxSpin signal) pc + 3 * Fintype.card Tid := by
        rw [Finset.sum_add_distrib, Finset.sum_const_nat fun _ _ => rfl,
          Finset.card_univ, Nat.mul_comm]
        rfl

variable [DecidableEq Tid] {v : Variant S T} {s s' : State Tid S T}

theorem StepCases.ahead_lt {a : Action Tid T} (h : StepCases v s s' a) :
    ahead v s' < ahead v s + gain v s a := by
  -- A step of one thread, from the statements ahead of it before and after.
  have hmove : ∀ {i pc}, s'.pc = Function.update s.pc i pc →
      pc.ahead v.maxSpin (3 * Fintype.card Tid) <
        (s.pc i).ahead v.maxSpin (3 * Fintype.card Tid) + gain v s a →
      ahead v s' < ahead v s + gain v s a := by
    intro i pc hpcs hless
    have htotal := total_update (Pc.ahead v.maxSpin (3 * Fintype.card Tid))
      s.pc i pc
    rw [ahead, ahead, hpcs]
    omega
  cases h with
  | call i c result pc before entry lock container pcs =>
      refine hmove pcs ?_
      rw [before]
      exact (entry_ahead _ entry).trans_le (Nat.le_add_left _ _)
  | acquire i next code free lock container pcs =>
      refine hmove pcs ?_
      rcases code with code | ⟨ms, expired, code⟩
      · exact AheadTyped.of_code _ code
      · exact (AheadTyped.of_code _ code).1
  | release i next code lock container pcs =>
      refine hmove pcs ?_
      rcases code with code | code
      · exact AheadTyped.of_code _ code
      · exact AheadTyped.of_code _ code
  | push i t next code pushed lock pcs =>
      exact hmove pcs (AheadTyped.of_code _ code)
  | pop i t empty popped code nonempty taken lock pcs =>
      exact hmove pcs ((AheadTyped.of_code _ code).2 t)
  | miss i empty popped code isEmpty lock container pcs =>
      exact hmove pcs (AheadTyped.of_code _ code).1
  | test i next code lock container pcs =>
      exact hmove pcs (AheadTyped.of_code _ code _)
  | yield i next code lock container pcs =>
      exact hmove pcs (AheadTyped.of_code _ code)
  | expireLock i ms next expired code lock container pcs =>
      exact hmove pcs (AheadTyped.of_code _ code).2
  | expireWait i woken expired unwinding code lock container pcs =>
      exact hmove pcs (AheadTyped.of_code _ code _ rfl)
  | wake i asleep lock container pcs =>
      have hwake := wake_ahead v.maxSpin (3 * Fintype.card Tid) (s.pc i)
      exact hmove pcs (Nat.lt_succ_of_le hwake)
  | signal i woken next code wakes lock container pcs =>
      have hnext := AheadTyped.of_code (3 * Fintype.card Tid) code
      have hwoken := total_wakeAll v.maxSpin (3 * Fintype.card Tid) s.pc woken
      have htotal := total_update (Pc.ahead v.maxSpin (3 * Fintype.card Tid))
        (wakeAll s.pc woken) i next
      have hmine : wakeAll s.pc woken i = s.pc i := by
        unfold wakeAll
        split
        · obtain hwake := wakes.1 i ‹_›
          obtain ⟨expired, hsleep⟩ := asleep_code v.maxSpin hwake
          cases hsleep.symm.trans code
        · rfl
      rw [hmine] at htotal
      simp only [AheadTyped] at hnext
      rw [ahead, ahead, pcs, gain]
      omega
  | cancel i lock container pcs =>
      rw [ahead, pcs]
      exact Nat.lt_succ_self _
  | cancelAct i asleep pending lock container pcs =>
      refine hmove pcs ?_
      cases hpc : s.pc i with
      | popAsleep kind => simp [Pc.ahead, gain]
      | _ =>
          rw [hpc] at asleep
          cases asleep

theorem potential (build : Build) (v : Variant S T) :
    Potential (system build v Tid) (ahead v) (gain v) where
  step reached step :=
    (step_cases build ((locked_inductive build).reachable reached) step).ahead_lt

/-! ## The length of a run -/

def Action.isCall : Action Tid T → Bool
  | .call _ _ => true
  | _ => false

def Action.isWake : Action Tid T → Bool
  | .wake _ => true
  | _ => false

def Action.isCancel : Action Tid T → Bool
  | .cancel _ => true
  | _ => false

omit [DecidableEq Tid] in
theorem gain_sum (v : Variant S T) (tr : History (State Tid S T) (Action Tid T)) :
    (tr.map fun p => gain v p.1 p.2).sum =
      callBudget v.maxSpin (3 * Fintype.card Tid) *
          tr.countP (fun p => p.2.isCall) +
        4 * tr.countP (fun p => p.2.isWake) +
        tr.countP fun p => p.2.isCancel := by
  induction tr with
  | nil => simp
  | cons p tr ih =>
      obtain ⟨s, a⟩ := p
      simp only [List.map_cons, List.sum_cons, List.countP_cons, ih]
      cases a <;> simp [gain, Action.isCall, Action.isWake, Action.isCancel,
        Nat.mul_succ] <;> omega

/--
Under every schedule a run is no longer than its calls, its spurious wake-ups and
its cancellation requests are worth, so these never cease in an infinite one.
-/
theorem steps_charged_to_calls (build : Build) (v : Variant S T) :
    (∀ tr s, (system build v Tid).Exec tr s →
      tr.length + ahead v s ≤
        callBudget v.maxSpin (3 * Fintype.card Tid) *
            tr.countP (fun p => p.2.isCall) +
          4 * tr.countP (fun p => p.2.isWake) +
          tr.countP fun p => p.2.isCancel) ∧
      ∀ (run : (system build v Tid).InfiniteRun) (m : ℕ), ∃ n, m ≤ n ∧
        ((run.actions n).isCall = true ∨ (run.actions n).isWake = true ∨
          (run.actions n).isCancel = true) := by
  constructor
  · intro tr s run
    rw [← gain_sum]
    refine (potential build v).length_add_le ?_ run
    rintro s rfl
    exact Finset.sum_eq_zero fun i _ => rfl
  · intro run m
    obtain ⟨n, hmn, hgain⟩ := (potential build v).recurs run m
    refine ⟨n, hmn, ?_⟩
    cases haction : run.actions n with
    | call i c => exact .inl rfl
    | wake i => exact .inr (.inl rfl)
    | cancel i => exact .inr (.inr rfl)
    | _ => simp [haction, gain] at hgain

end Iocore.Queue
