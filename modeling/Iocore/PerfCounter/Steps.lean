import Iocore.PerfCounter.Model

/-!
# The steps of an update

What a step of `Update` does, by the statement the thread is at.  An exchange
either finds the cell as it was loaded, and puts the value there, or leaves
everything as it is.
-/

namespace Iocore.PerfCounter

open Foundation Foundation.System

variable {Tid : Type} [DecidableEq Tid]

inductive StepCases (s : State Tid) : Action Tid → State Tid → Prop
  | call (i : Tid) (val : UInt32) (before : s.pc i = .idle) :
      StepCases s (.update i val) (s.goto i (.addVal val) s.counter)
  | addVal (i : Tid) (val : UInt32) (before : s.pc i = .addVal val) :
      StepCases s (.next i) (s.goto i (.addCount val)
        { s.counter with val := s.counter.val + val.toUInt64 })
  | addCount (i : Tid) (val : UInt32) (before : s.pc i = .addCount val) :
      StepCases s (.next i) (s.goto i (.loadMin val)
        { s.counter with count := s.counter.count + 1 })
  | loadMin (i : Tid) (val : UInt32) (before : s.pc i = .loadMin val)
      (less : val.toUInt64 < s.counter.min) :
      StepCases s (.next i)
        (s.goto i (.exchangeMin val s.counter.min less) s.counter)
  | leaveMin (i : Tid) (val : UInt32) (before : s.pc i = .loadMin val)
      (least : ¬ val.toUInt64 < s.counter.min) :
      StepCases s (.next i) (s.goto i (.loadMax val) s.counter)
  | exchangeMin (i : Tid) (val : UInt32) (less : val.toUInt64 < s.counter.min)
      (before : s.pc i = .exchangeMin val s.counter.min less) :
      StepCases s (.next i)
        (s.goto i (.loadMin val) { s.counter with min := val.toUInt64 })
  | retryMin (i : Tid) (val : UInt32) (minCount : UInt64)
      (less : val.toUInt64 < minCount)
      (before : s.pc i = .exchangeMin val minCount less)
      (stale : s.counter.min ≠ minCount) :
      StepCases s (.next i) (s.goto i (.loadMin val) s.counter)
  | loadMax (i : Tid) (val : UInt32) (before : s.pc i = .loadMax val)
      (greater : val.toUInt64 > s.counter.max) :
      StepCases s (.next i)
        (s.goto i (.exchangeMax val s.counter.max greater) s.counter)
  | leaveMax (i : Tid) (val : UInt32) (before : s.pc i = .loadMax val)
      (greatest : ¬ val.toUInt64 > s.counter.max) :
      StepCases s (.next i) (s.goto i (.addBucket val) s.counter)
  | exchangeMax (i : Tid) (val : UInt32)
      (greater : val.toUInt64 > s.counter.max)
      (before : s.pc i = .exchangeMax val s.counter.max greater) :
      StepCases s (.next i)
        (s.goto i (.loadMax val) { s.counter with max := val.toUInt64 })
  | retryMax (i : Tid) (val : UInt32) (maxCount : UInt64)
      (greater : val.toUInt64 > maxCount)
      (before : s.pc i = .exchangeMax val maxCount greater)
      (stale : s.counter.max ≠ maxCount) :
      StepCases s (.next i) (s.goto i (.loadMax val) s.counter)
  | addBucket (i : Tid) (val : UInt32) (before : s.pc i = .addBucket val) :
      StepCases s (.next i) (s.goto i .idle { s.counter with
        bucket := fun b => if Belongs b val then s.counter.bucket b + 1
          else s.counter.bucket b })

def Action.actor {Tid : Type} : Action Tid → Tid
  | .update i _ | .next i => i

def Action.began {Tid : Type} : Action Tid → Option UInt32
  | .update _ val => some val
  | .next _ => none

theorem StepCases.pc_other {s s' : State Tid} {a : Action Tid}
    (h : StepCases s a s') {j : Tid} (hj : a.actor ≠ j) : s'.pc j = s.pc j := by
  cases h <;> exact Function.update_of_ne (fun e => hj e.symm) _ _

theorem StepCases.min_le {s s' : State Tid} {a : Action Tid}
    (h : StepCases s a s') : s'.counter.min ≤ s.counter.min := by
  cases h with
  | exchangeMin i val less before => exact UInt64.le_of_lt less
  | _ => exact UInt64.le_refl _

theorem StepCases.busy {s s' : State Tid} {i : Tid}
    (h : StepCases s (.next i) s') : s.pc i ≠ .idle := by
  intro hidle
  cases h with
  | addVal _ val before | addCount _ val before | loadMin _ val before _
  | leaveMin _ val before _ | exchangeMin _ val _ before
  | retryMin _ val _ _ before _ | loadMax _ val before _
  | leaveMax _ val before _ | exchangeMax _ val _ before
  | retryMax _ val _ _ before _ | addBucket _ val before =>
      rw [before] at hidle
      cases hidle

theorem advance_cases {s s' : State Tid} {i : Tid}
    (h : advance s i = .ok s') : StepCases s (.next i) s' := by
  unfold advance at h
  cases hpc : s.pc i with
  | idle => simp [hpc] at h
  | addVal val =>
      simp only [hpc] at h
      cases h
      exact .addVal i val hpc
  | addCount val =>
      simp only [hpc] at h
      cases h
      exact .addCount i val hpc
  | loadMin val =>
      simp only [hpc] at h
      split at h <;> cases h
      · exact .loadMin i val hpc ‹_›
      · exact .leaveMin i val hpc ‹_›
  | exchangeMin val minCount less =>
      simp only [hpc] at h
      cases h
      by_cases hsame : s.counter.min = minCount
      · subst hsame
        rw [compareExchangeStrong_self]
        exact .exchangeMin i val less hpc
      · rw [compareExchangeStrong_ne hsame]
        exact .retryMin i val minCount less hpc hsame
  | loadMax val =>
      simp only [hpc] at h
      split at h <;> cases h
      · exact .loadMax i val hpc ‹_›
      · exact .leaveMax i val hpc ‹_›
  | exchangeMax val maxCount greater =>
      simp only [hpc] at h
      cases h
      by_cases hsame : s.counter.max = maxCount
      · subst hsame
        rw [compareExchangeStrong_self]
        exact .exchangeMax i val greater hpc
      · rw [compareExchangeStrong_ne hsame]
        exact .retryMax i val maxCount greater hpc hsame
  | addBucket val =>
      simp only [hpc, updateBucket_eq, Code.ok_bind] at h
      cases h
      exact .addBucket i val hpc

theorem step_cases {s s' : State Tid} {a : Action Tid}
    (h : (system Tid).step s a s') : StepCases s a s' := by
  change exec s a = .ok s' at h
  cases a with
  | next i => exact advance_cases h
  | update i val =>
      cases hpc : s.pc i <;> simp only [exec, hpc] at h <;> cases h
      exact .call i val hpc

end Iocore.PerfCounter
