import Iocore.Foundation.Parts
import Iocore.Lock.SpinMutex.Ownership
import Iocore.PerfCounter.Sequential
import Iocore.Thread.Model

/-!
# The spin time of a mutex

`Lock` reads the clock before its loop and after it, and passes the time in
between to `statSpinTime_` before it returns.  It has the mutex by then, so the
calls of `Update` do not overlap, and the loops of the counter never retry.

A reading of the clock is whatever the cycle counter of the thread's core gives.
-/

namespace Iocore.SpinMutex.SpinTime

open Foundation Foundation.System

/-- `start` is `startInMicroSec` of a call of `Lock` that has yet to use it. -/
structure State (Tid : Type) where
  lock : SpinMutex.State Tid
  stat : PerfCounter.State Tid
  start : Tid → Option UInt64

inductive Action (Tid : Type) where
  | lock (a : SpinMutex.Action Tid)
  | readStart (i : Tid) (nowInMicroSec : UInt64)
  | readEnd (i : Tid) (nowInMicroSec : UInt64)
  | count (i : Tid)
  deriving DecidableEq, Repr

def initial (Tid : Type) (owner : PthreadT) : State Tid :=
  ⟨SpinMutex.initial Tid owner, PerfCounter.initial Tid, fun _ => none⟩

def elapsedInMicroSec (nowInMicroSec startInMicroSec : UInt64) : UInt64 :=
  Thread.elapsed nowInMicroSec startInMicroSec

def isIdle : Pc → Bool
  | .idle _ => true
  | _ => false

def inLoop : Pc → Bool
  | .tryCas spin | .tryAssert spin | .tryOwner spin => spin
  | _ => false

def State.pending {Tid : Type} (s : State Tid) (i : Tid) : Bool :=
  isIdle (s.lock.pc i) && (s.start i).isSome

def State.timing {Tid : Type} (s : State Tid) (i : Tid) : Bool :=
  s.pending i || decide (s.stat.pc i ≠ .idle)

variable {Tid : Type} [DecidableEq Tid] (build : Build) (ids : ThreadIds Tid)

def exec (s : State Tid) : Action Tid → Code (State Tid)
  | .lock a =>
      if s.timing a.tid ∨
          s.lock.pc a.tid = .tryCas true ∧ s.start a.tid = none then
        .error .blocked
      else do
        let lock ← SpinMutex.exec build ids s.lock a
        return { s with lock := lock }
  | .readStart i nowInMicroSec =>
      if s.lock.pc i = .tryCas true ∧ s.start i = none then
        .ok { s with start := Function.update s.start i (some nowInMicroSec) }
      else .error .blocked
  | .readEnd i nowInMicroSec =>
      match s.start i with
      | none => .error .blocked
      | some startInMicroSec =>
          if isIdle (s.lock.pc i) then do
            let spun := elapsedInMicroSec nowInMicroSec startInMicroSec
            let stat ← PerfCounter.exec s.stat (.update i spun.toUInt32)
            return { s with
              stat := stat
              start := Function.update s.start i none }
          else .error .blocked
  | .count i => do
      let stat ← PerfCounter.exec s.stat (.next i)
      return { s with stat := stat }

def system (owner : PthreadT) : System (State Tid) (Action Tid) :=
  .ofFunction (fun s => s = initial Tid owner) (exec build ids)

/-! ## What is observed of a run -/

def spent (s : State Tid) : Action Tid → Option UInt64
  | .readEnd i nowInMicroSec => (s.start i).map (elapsedInMicroSec nowInMicroSec)
  | _ => none

def spins (tr : History (State Tid) (Action Tid)) : List UInt32 :=
  observed (fun s a => (spent s a).map UInt64.toUInt32) tr

def spun (tr : History (State Tid) (Action Tid)) : ℕ :=
  (observed (fun s a => (spent s a).map UInt64.toNat) tr).sum

def acquires (s : State Tid) : Action Tid → Bool
  | .lock (.next i) => s.lock.pc i = .tryOwner true
  | _ => false

def acquired (tr : History (State Tid) (Action Tid)) : ℕ :=
  tr.countP fun p => acquires p.1 p.2

/-- How many steps the latest call of `Update` by thread `i` has made. -/
def updateSteps (i : Tid) : History (State Tid) (Action Tid) → ℕ
  | [] => 0
  | (_, .readEnd j _) :: tr => if j = i then 0 else updateSteps i tr
  | (_, .count j) :: tr =>
      if j = i then updateSteps i tr + 1 else updateSteps i tr
  | _ :: tr => updateSteps i tr

/-- No call is in the loop for 71 minutes. -/
def Fits (s : State Tid) (a : Action Tid) : Prop :=
  match spent s a with
  | none => True
  | some us => us.toNat < 2 ^ 32

omit [DecidableEq Tid] in
instance (s : State Tid) (a : Action Tid) : Decidable (Fits s a) := by
  unfold Fits
  split <;> infer_instance

/-! ## The mutex and the counter as parts -/

def locks (_ : State Tid) : Action Tid → Option (SpinMutex.Action Tid)
  | .lock a => some a
  | _ => none

def counts (s : State Tid) : Action Tid → Option (PerfCounter.Action Tid)
  | .readEnd i now => (spent s (.readEnd i now)).map fun us =>
      .update i us.toUInt32
  | .count i => some (.next i)
  | _ => none

variable {build ids} {owner : PthreadT} {s s' : State Tid}

inductive StepCases (build : Build) (ids : ThreadIds Tid) (s : State Tid) :
    Action Tid → State Tid → Prop
  | lock (a : SpinMutex.Action Tid) (lock : SpinMutex.State Tid)
      (returned : s.timing a.tid = false)
      (started : s.lock.pc a.tid = .tryCas true → s.start a.tid ≠ none)
      (step : SpinMutex.exec build ids s.lock a = .ok lock) :
      StepCases build ids s (.lock a) { s with lock := lock }
  | readStart (i : Tid) (now : UInt64) (looping : s.lock.pc i = .tryCas true)
      (fresh : s.start i = none) :
      StepCases build ids s (.readStart i now)
        { s with start := Function.update s.start i (some now) }
  | readEnd (i : Tid) (now start : UInt64) (stat : PerfCounter.State Tid)
      (started : s.start i = some start) (left : isIdle (s.lock.pc i) = true)
      (step : PerfCounter.exec s.stat
        (.update i (elapsedInMicroSec now start).toUInt32) = .ok stat) :
      StepCases build ids s (.readEnd i now)
        { s with stat := stat, start := Function.update s.start i none }
  | count (i : Tid) (stat : PerfCounter.State Tid)
      (step : PerfCounter.exec s.stat (.next i) = .ok stat) :
      StepCases build ids s (.count i) { s with stat := stat }

theorem step_cases {a : Action Tid} (h : exec build ids s a = .ok s') :
    StepCases build ids s a s' := by
  cases a with
  | lock a =>
      rw [exec] at h
      split at h
      case isTrue => cases h
      case isFalse hfree =>
        rw [not_or, Bool.not_eq_true, not_and] at hfree
        obtain ⟨lock, hlock, hs'⟩ := Code.bind_eq_ok.mp h
        cases hs'
        exact .lock a lock hfree.1 hfree.2 hlock
  | readStart i now =>
      rw [exec] at h
      split at h
      case isTrue hready =>
        cases h
        exact .readStart i now hready.1 hready.2
      case isFalse => cases h
  | readEnd i now =>
      rw [exec] at h
      split at h
      case h_1 => cases h
      case h_2 start hstart =>
        split at h
        case isTrue hleft =>
          obtain ⟨stat, hstat, hs'⟩ := Code.bind_eq_ok.mp h
          cases hs'
          exact .readEnd i now start stat hstart hleft hstat
        case isFalse => cases h
  | count i =>
      obtain ⟨stat, hstat, hs'⟩ := Code.bind_eq_ok.mp h
      cases hs'
      exact .count i stat hstat

theorem lock_part : Part (system build ids owner)
    (SpinMutex.system build ids owner) State.lock locks where
  init := by
    rintro s rfl
    rfl
  step _ h := by
    cases step_cases h with
    | lock a lock returned started step => exact step
    | _ => rfl

theorem counter_part : Part (system build ids owner) (PerfCounter.system Tid)
    State.stat counts where
  init := by
    rintro s rfl
    rfl
  step _ h := by
    cases step_cases h with
    | readEnd i now start stat started left step =>
        rw [counts, spent, started]
        exact step
    | count i stat step => exact step
    | _ => rfl

/-! ## The loop of `Lock` -/

variable {l l' : SpinMutex.State Tid} {a : SpinMutex.Action Tid}

/-- The loop is left by the step that stores the owner, and by no other. -/
theorem loop_step (h : SpinMutex.exec build ids l a = .ok l')
    (looping : inLoop (l.pc a.tid) = true) :
    inLoop (l'.pc a.tid) = true ∧ l.pc a.tid ≠ .tryOwner true ∨
      a = .next a.tid ∧ l.pc a.tid = .tryOwner true ∧
        l'.pc a.tid = .idle none ∧ l'.won = l.won := by
  cases a with
  | call i c =>
      change inLoop (l.pc i) = true at looping
      cases hpc : l.pc i with
      | idle result =>
          rw [hpc] at looping
          cases looping
      | _ => simp [SpinMutex.exec, hpc] at h
  | next i =>
      change inLoop (l.pc i) = true at looping
      change advance build ids l i = .ok l' at h
      change inLoop (l'.pc i) = true ∧ l.pc i ≠ .tryOwner true ∨
        Action.next i = Action.next i ∧ l.pc i = .tryOwner true ∧
          l'.pc i = .idle none ∧ l'.won = l.won
      unfold advance at h
      cases hpc : l.pc i with
      | tryCas spin =>
          rw [hpc] at looping
          obtain rfl : spin = true := looping
          simp only [hpc, if_true] at h
          refine .inl ⟨?_, by simp⟩
          split at h <;> cases h
          · cases build.debugBuild <;> simp [inLoop]
          · simp [inLoop]
      | tryAssert spin =>
          rw [hpc] at looping
          obtain rfl : spin = true := looping
          simp only [hpc, Code.bind_eq_ok] at h
          obtain ⟨-, -, h⟩ := h
          cases h
          exact .inl ⟨by simp [inLoop], by simp⟩
      | tryOwner spin =>
          rw [hpc] at looping
          obtain rfl : spin = true := looping
          simp only [hpc, if_true] at h
          cases h
          exact .inr ⟨rfl, rfl, State.goto_pc_self .., rfl⟩
      | _ =>
          rw [hpc] at looping
          cases looping

theorem loop_enter (h : SpinMutex.exec build ids l a = .ok l')
    (outside : inLoop (l.pc a.tid) = false)
    (looping : inLoop (l'.pc a.tid) = true) : l'.pc a.tid = .tryCas true := by
  cases a with
  | call i c =>
      change inLoop (l'.pc i) = true at looping
      cases hpc : l.pc i with
      | idle result =>
          simp only [SpinMutex.exec, hpc] at h
          split at h <;> cases h
          rw [State.goto_pc_self] at looping
          cases c <;> cases hb : build.debugBuild <;>
            simp [Call.entry, hb, inLoop] at looping
      | _ => simp [SpinMutex.exec, hpc] at h
  | next i =>
      change inLoop (l.pc i) = false at outside
      change inLoop (l'.pc i) = true at looping
      change advance build ids l i = .ok l' at h
      change l'.pc i = .tryCas true
      unfold advance at h
      cases hpc : l.pc i with
      | idle result => simp [hpc] at h
      | is value | isOwnerRead | unlockOwner =>
          simp only [hpc] at h
          cases h
          simp [inLoop] at looping
      | isOwnerClosed =>
          simp only [hpc] at h
          split at h <;> cases h <;> simp [inLoop] at looping
      | lockOpen =>
          simp only [hpc] at h
          split at h <;> cases h
          · exact State.goto_pc_self ..
          · simp [inLoop] at looping
      | lockClosed =>
          simp only [hpc] at h
          split at h <;> cases h
          · simp [inLoop] at looping
          · exact State.goto_pc_self ..
      | lockRead =>
          simp only [hpc, Code.bind_eq_ok] at h
          obtain ⟨-, -, h⟩ := h
          cases h
          exact State.goto_pc_self ..
      | tryCas spin =>
          rw [hpc] at outside
          obtain rfl : spin = false := outside
          simp only [hpc, Bool.false_eq_true, if_false] at h
          split at h <;> cases h
          · cases hb : build.debugBuild <;> simp [hb, inLoop] at looping
          · simp [inLoop] at looping
      | tryAssert spin =>
          rw [hpc] at outside
          obtain rfl : spin = false := outside
          simp only [hpc, Code.bind_eq_ok] at h
          obtain ⟨-, -, h⟩ := h
          cases h
          simp [inLoop] at looping
      | tryOwner spin =>
          simp only [hpc] at h
          cases h
          simp [inLoop] at looping
      | unlockClosed =>
          simp only [hpc] at h
          split at h
          · cases h
            simp [inLoop] at looping
          · simp only [Code.bind_eq_ok] at h
            obtain ⟨-, -, h⟩ := h
            cases h
            simp [inLoop] at looping
      | unlockRead =>
          simp only [hpc, Code.bind_eq_ok] at h
          obtain ⟨-, -, h⟩ := h
          cases h
          simp [inLoop] at looping
      | unlockCas =>
          simp only [hpc, Code.bind_eq_ok] at h
          obtain ⟨-, -, h⟩ := h
          cases h
          simp [inLoop] at looping

/-! ## Who is timing has the mutex -/

structure LocalTimed (pc : Pc) (won : Bool) (start : Option UInt64)
    (statPc : PerfCounter.Pc) : Prop where
  started : inLoop pc = true → pc = .tryCas true ∨ start ≠ none
  reading : start ≠ none → inLoop pc = true ∨ isIdle pc = true ∧ won = true
  counting : statPc ≠ .idle → isIdle pc = true ∧ won = true ∧ start = none

def Timed (s : State Tid) : Prop :=
  ∀ i, LocalTimed (s.lock.pc i) (s.lock.won i) (s.start i) (s.stat.pc i)

theorem not_inLoop {pc : Pc} (h : isIdle pc = true) : inLoop pc = false := by
  cases pc <;> first | rfl | cases h

omit [DecidableEq Tid] in
theorem timing_eq_false {i : Tid} : s.timing i = false ↔
    (isIdle (s.lock.pc i) = true → s.start i = none) ∧
      s.stat.pc i = .idle := by
  simp only [State.timing, State.pending, Bool.or_eq_false_iff,
    decide_eq_false_iff_not, not_not]
  refine and_congr_left fun _ => ?_
  cases isIdle (s.lock.pc i) <;> simp

theorem LocalTimed.lock_step (owned : Owned ids s.lock) (timed : Timed s)
    (returned : s.timing a.tid = false)
    (started : s.lock.pc a.tid = .tryCas true → s.start a.tid ≠ none)
    (h : SpinMutex.exec build ids s.lock a = .ok l) :
    LocalTimed (l.pc a.tid) (l.won a.tid) (s.start a.tid)
      (s.stat.pc a.tid) := by
  obtain ⟨hidle, hstat⟩ := timing_eq_false.mp returned
  have mine := timed a.tid
  cases hloop : inLoop (s.lock.pc a.tid) with
  | true =>
      have hstart : s.start a.tid ≠ none := (mine.started hloop).elim started id
      rcases loop_step h hloop with ⟨hloop', -⟩ | ⟨-, howner, hpc, hwon⟩
      · exact ⟨fun _ => .inr hstart, fun _ => .inl hloop',
          fun hne => absurd hstat hne⟩
      · refine ⟨fun _ => .inr hstart, fun _ => .inr ⟨?_, ?_⟩,
          fun hne => absurd hstat hne⟩
        · rw [hpc]
          rfl
        · rw [hwon]
          exact (owned.threads a.tid).region (by rw [howner]; rfl)
  | false =>
      have hstart : s.start a.tid = none := by
        by_contra hne
        rcases mine.reading hne with hloop' | ⟨hleft, -⟩
        · rw [hloop] at hloop'
          cases hloop'
        · exact hne (hidle hleft)
      exact ⟨fun hloop' => .inl (loop_enter h hloop hloop'),
        fun hne => absurd hstart hne, fun hne => absurd hstat hne⟩

theorem timed_reachable (run : (system build ids owner).Reachable s) :
    Timed s := by
  refine Reachable.invariant ?_ ?_ run
  · rintro s rfl i
    exact ⟨nofun, nofun, nofun⟩
  · intro s a s' run timed hstep
    have owned : Owned ids s.lock :=
      (owned_inductive build ids owner).reachable (lock_part.reachable run)
    cases step_cases hstep with
    | lock a lock returned started step =>
        intro j
        by_cases hj : j = a.tid
        · subst hj
          have hmine := LocalTimed.lock_step owned timed returned started step
          exact hmine
        · obtain ⟨hpc, hwon⟩ := others_stay build ids owned step hj
          change LocalTimed (lock.pc j) (lock.won j) _ _
          rw [hpc, hwon]
          exact timed j
    | readStart i now looping fresh =>
        refine forall_update
          (fun j start => LocalTimed (s.lock.pc j) (s.lock.won j) start
            (s.stat.pc j)) ?_ fun j _ => timed j
        have hloop : inLoop (s.lock.pc i) = true := by rw [looping]; rfl
        refine ⟨fun _ => .inl looping, fun _ => .inl hloop, fun hne => ?_⟩
        have hleft := ((timed i).counting hne).1
        rw [looping] at hleft
        cases hleft
    | readEnd i now start stat started left step =>
        have hwon : s.lock.won i = true := by
          rcases (timed i).reading (by rw [started]; nofun) with
            hloop | ⟨-, hwon⟩
          · rw [not_inLoop left] at hloop
            cases hloop
          · exact hwon
        intro j
        by_cases hj : j = i
        · subst hj
          change LocalTimed _ _ (Function.update s.start j none j) _
          rw [Function.update_self]
          refine ⟨fun hloop => ?_, fun hne => absurd rfl hne,
            fun _ => ⟨left, hwon, rfl⟩⟩
          rw [not_inLoop left] at hloop
          cases hloop
        · have hpc := (PerfCounter.step_cases step).pc_other (Ne.symm hj)
          change LocalTimed _ _ (Function.update s.start i none j) (stat.pc j)
          rw [Function.update_of_ne hj, hpc]
          exact timed j
    | count i stat step =>
        have hcases := PerfCounter.step_cases step
        intro j
        by_cases hj : j = i
        · subst hj
          exact ⟨(timed j).started, (timed j).reading,
            fun _ => (timed j).counting hcases.busy⟩
        · have hpc := hcases.pc_other (Ne.symm hj)
          change LocalTimed _ _ _ (stat.pc j)
          rw [hpc]
          exact timed j

section

omit [DecidableEq Tid]

theorem Timed.won_of_pending (h : Timed s) {i : Tid}
    (pending : s.pending i = true) : s.lock.won i = true := by
  obtain ⟨hleft, hstart⟩ := Bool.and_eq_true_iff.mp pending
  have hne : s.start i ≠ none := Option.ne_none_iff_isSome.mpr hstart
  rcases (h i).reading hne with hloop | ⟨-, hwon⟩
  · rw [not_inLoop hleft] at hloop
    cases hloop
  · exact hwon

/-- Whoever still has to return from `Lock` has the mutex. -/
theorem Timed.won (h : Timed s) {i : Tid} (timing : s.timing i = true) :
    s.lock.won i = true := by
  rcases Bool.or_eq_true_iff.mp timing with hpending | hcounting
  · exact h.won_of_pending hpending
  · exact ((h i).counting (of_decide_eq_true hcounting)).2.1

theorem Timed.idle_of_won (h : Timed s) (owned : Owned ids s.lock) {i j : Tid}
    (won : s.lock.won i = true) (hj : j ≠ i) : s.stat.pc j = .idle := by
  by_contra hne
  exact hj (owned.unique _ _ ((h j).counting hne).2.1 won)

theorem Timed.not_pending (h : Timed s) (owned : Owned ids s.lock) {i j : Tid}
    (won : s.lock.won i = true) (hj : j ≠ i) : s.pending j = false := by
  by_contra hpending
  rw [Bool.not_eq_false] at hpending
  exact hj (owned.unique _ _ (h.won_of_pending hpending) won)

end

/-! ## The account of the calls -/

structure Account (tr : History (State Tid) (Action Tid)) (s : State Tid) :
    Prop where
  fresh : ∀ i, (s.stat.pc i).Fresh s.stat.counter
  steps : ∀ i, updateSteps i tr +
    PerfCounter.stepsLeft s.stat.counter (s.stat.pc i) ≤ 9
  owed : ∀ i, s.pending i = true → acquired tr = (spins tr).length + 1
  even : (∀ i, s.pending i = false) → acquired tr = (spins tr).length

namespace Account

variable {tr : History (State Tid) (Action Tid)}

omit [DecidableEq Tid] in
theorem spins_cons {x : Action Tid} :
    spins ((s, x) :: tr) =
      ((spent s x).map UInt64.toUInt32).toList ++ spins tr :=
  observed_cons ..

theorem stay (h : Account tr s) {x : Action Tid} (stat : s'.stat = s.stat)
    (pending : ∀ i, s'.pending i = s.pending i) (silent : spent s x = none)
    (other : acquires s x = false)
    (quiet : ∀ i, updateSteps i ((s, x) :: tr) = updateSteps i tr) :
    Account ((s, x) :: tr) s' := by
  have hspins : spins ((s, x) :: tr) = spins tr := by rw [spins_cons, silent]; rfl
  have hacquired : acquired ((s, x) :: tr) = acquired tr :=
    List.countP_cons_of_neg (by simp [other])
  constructor
  · rw [stat]
    exact h.fresh
  · rw [stat]
    exact fun i => (quiet i).symm ▸ h.steps i
  · rw [hspins, hacquired]
    exact fun i hi => h.owed i ((pending i).symm.trans hi)
  · rw [hspins, hacquired]
    exact fun hnone => h.even fun i => (pending i).symm.trans (hnone i)

theorem lock_step (h : Account tr s) (owned : Owned ids s.lock)
    (timed : Timed s) (returned : s.timing a.tid = false)
    (step : SpinMutex.exec build ids s.lock a = .ok l) :
    Account ((s, .lock a) :: tr) { s with lock := l } := by
  obtain ⟨hidle, -⟩ := timing_eq_false.mp returned
  have hothers : ∀ j, j ≠ a.tid →
      State.pending { s with lock := l } j = s.pending j := fun j hj => by
    rw [State.pending, State.pending, (others_stay build ids owned step hj).1]
  have hmine : s.pending a.tid = false :=
    (Bool.or_eq_false_iff.mp returned).1
  by_cases hleave : acquires s (.lock a) = true
  · obtain ⟨i, rfl, hpc⟩ : ∃ i, a = .next i ∧ s.lock.pc i = .tryOwner true := by
      cases a with
      | call i c => cases hleave
      | next i => exact ⟨i, rfl, of_decide_eq_true hleave⟩
    have hloop : inLoop (s.lock.pc i) = true := by rw [hpc]; rfl
    have hwon : s.lock.won i = true :=
      (owned.threads i).region (by rw [hpc]; rfl)
    have hnobody : ∀ j, s.pending j = false := by
      intro j
      by_cases hj : j = i
      · exact hj ▸ hmine
      · exact timed.not_pending owned hwon hj
    have hstart : s.start i ≠ none :=
      ((timed i).started hloop).resolve_left (by rw [hpc]; nofun)
    have hdebt : State.pending { s with lock := l } i = true := by
      rcases loop_step step hloop with ⟨-, hne⟩ | ⟨-, -, hidle', -⟩
      · exact absurd hpc hne
      · have hleft : isIdle (l.pc i) = true := by
          change l.pc i = .idle none at hidle'
          rw [hidle']
          rfl
        exact Bool.and_eq_true_iff.mpr
          ⟨hleft, Option.ne_none_iff_isSome.mp hstart⟩
    have hacquired : acquired ((s, .lock (.next i)) :: tr) =
        (spins tr).length + 1 := by
      rw [← h.even hnobody]
      exact List.countP_cons_of_pos hleave
    constructor
    · exact h.fresh
    · exact h.steps
    · exact fun _ _ => hacquired
    · intro hnone
      rw [hnone i] at hdebt
      cases hdebt
  · rw [Bool.not_eq_true] at hleave
    refine h.stay rfl (fun j => ?_) rfl hleave fun _ => rfl
    by_cases hj : j = a.tid
    · subst hj
      rw [hmine]
      cases hloop : inLoop (s.lock.pc a.tid) with
      | true =>
          rcases loop_step step hloop with ⟨hloop', -⟩ | ⟨ha, hpc, -⟩
          · refine Bool.and_eq_false_iff.mpr (.inl ?_)
            by_contra hleft
            rw [Bool.not_eq_false] at hleft
            rw [not_inLoop hleft] at hloop'
            cases hloop'
          · rw [ha, acquires, hpc] at hleave
            cases hleave
      | false =>
          have hstart : s.start a.tid = none := by
            by_contra hne
            rcases (timed a.tid).reading hne with hloop' | ⟨hleft, -⟩
            · rw [hloop] at hloop'
              cases hloop'
            · exact hne (hidle hleft)
          rw [State.pending, hstart]
          exact Bool.and_false _
    · exact hothers j hj

theorem readEnd_step (h : Account tr s) (owned : Owned ids s.lock)
    (timed : Timed s) {i : Tid} {now start : UInt64}
    {stat : PerfCounter.State Tid} (started : s.start i = some start)
    (left : isIdle (s.lock.pc i) = true)
    (step : PerfCounter.exec s.stat
      (.update i (elapsedInMicroSec now start).toUInt32) = .ok stat) :
    Account ((s, .readEnd i now) :: tr) { s with
      stat := stat, start := Function.update s.start i none } := by
  have hpending : s.pending i = true := by
    rw [State.pending, left, started]
    rfl
  have hwon := timed.won_of_pending hpending
  have hspins : (spins ((s, .readEnd i now) :: tr)).length =
      (spins tr).length + 1 := by
    rw [spins_cons, spent, started]
    rfl
  have hacquired : acquired ((s, .readEnd i now) :: tr) =
      (spins tr).length + 1 :=
    (List.countP_cons_of_neg Bool.false_ne_true).trans (h.owed i hpending)
  have hnone : ∀ j, State.pending { s with
      stat := stat, start := Function.update s.start i none } j = false := by
    intro j
    by_cases hj : j = i
    · subst hj
      rw [State.pending]
      dsimp only
      rw [Function.update_self]
      exact Bool.and_false _
    · rw [State.pending]
      dsimp only
      rw [Function.update_of_ne hj]
      exact timed.not_pending owned hwon hj
  cases PerfCounter.step_cases step with
  | call _ val before =>
      have hothers : ∀ j, j ≠ i →
          (s.stat.goto i (.addVal (elapsedInMicroSec now start).toUInt32)
            s.stat.counter).pc j = .idle := fun j hj =>
        (Function.update_of_ne hj _ _).trans (timed.idle_of_won owned hwon hj)
      refine ⟨fun j => ?_, fun j => ?_, fun j hj => ?_, fun _ => ?_⟩
      · by_cases hj : j = i
        · subst hj
          dsimp only
          rw [PerfCounter.State.goto_pc_self]
          trivial
        · dsimp only
          rw [hothers j hj]
          trivial
      · by_cases hj : j = i
        · subst hj
          dsimp only
          rw [updateSteps, if_pos rfl, PerfCounter.State.goto_pc_self,
            PerfCounter.State.goto_counter, Nat.zero_add]
          exact PerfCounter.stepsLeft_addVal_le ..
        · dsimp only
          rw [updateSteps, if_neg (Ne.symm hj), hothers j hj]
          exact (Nat.le_add_right _ _).trans (h.steps j)
      · rw [hnone j] at hj
        cases hj
      · rw [hspins, hacquired]

theorem count_step (h : Account tr s) (owned : Owned ids s.lock)
    (timed : Timed s) {i : Tid} {stat : PerfCounter.State Tid}
    (step : PerfCounter.exec s.stat (.next i) = .ok stat) :
    Account ((s, .count i) :: tr) { s with stat := stat } := by
  have hcases := PerfCounter.step_cases step
  have hwon := ((timed i).counting hcases.busy).2.1
  have hothers : ∀ j, j ≠ i → stat.pc j = .idle := fun j hj =>
    (hcases.pc_other (Ne.symm hj)).trans (timed.idle_of_won owned hwon hj)
  obtain ⟨hfresh, hless⟩ := hcases.undisturbed (h.fresh i)
  refine ⟨fun j => ?_, fun j => ?_, h.owed, h.even⟩
  · by_cases hj : j = i
    · exact hj ▸ hfresh
    · dsimp only
      rw [hothers j hj]
      trivial
  · by_cases hj : j = i
    · subst hj
      have hsteps := h.steps j
      dsimp only
      rw [updateSteps, if_pos rfl]
      omega
    · dsimp only
      rw [updateSteps, if_neg (Ne.symm hj), hothers j hj]
      exact (Nat.le_add_right _ _).trans (h.steps j)

end Account

variable {tr : History (State Tid) (Action Tid)}

theorem account_exec (run : (system build ids owner).Exec tr s) :
    Account tr s := by
  induction run with
  | start init =>
      obtain rfl := init
      exact ⟨fun _ => trivial, fun _ => Nat.zero_le _, fun _ => nofun,
        fun _ => rfl⟩
  | @next tr s s' a run hstep ih =>
      have owned : Owned ids s.lock := (owned_inductive build ids owner).reachable
        (lock_part.reachable run.reachable)
      have timed := timed_reachable run.reachable
      cases step_cases hstep with
      | lock a lock returned started step =>
          exact ih.lock_step owned timed returned step
      | readStart i now looping fresh =>
          refine ih.stay rfl (fun j => ?_) rfl rfl fun _ => rfl
          by_cases hj : j = i
          · subst hj
            rw [State.pending, State.pending, looping]
            rfl
          · rw [State.pending, State.pending]
            dsimp only
            rw [Function.update_of_ne hj]
      | readEnd i now start stat started left step =>
          exact ih.readEnd_step owned timed started left step
      | count i stat step => exact ih.count_step owned timed step

omit [DecidableEq Tid] in
theorem begun_eq (tr : History (State Tid) (Action Tid)) :
    PerfCounter.begun (Part.history State.stat counts tr) = spins tr := by
  rw [PerfCounter.begun, Part.observed_history, spins]
  congr 1
  funext s a
  cases a with
  | readEnd i now =>
      cases hspent : spent s (.readEnd i now) <;> simp [counts, hspent]
  | _ => rfl

omit [DecidableEq Tid] in
theorem sum_spins (fits : Meets Fits tr) :
    PerfCounter.sum (spins tr) = spun tr := by
  induction tr with
  | nil => rfl
  | cons p tr ih =>
      obtain ⟨s, a⟩ := p
      obtain ⟨hfits, hrest⟩ := meets_cons.mp fits
      have ih := ih hrest
      rw [Account.spins_cons, spun, observed_cons]
      cases hspent : spent s a with
      | none => exact ih
      | some us =>
          rw [Fits, hspent] at hfits
          have hval : us.toUInt32.toNat = us.toNat := by
            rw [UInt64.toNat_toUInt32]
            exact Nat.mod_eq_of_lt hfits
          simp only [Option.map_some, Option.toList_some,
            List.singleton_append, PerfCounter.sum, List.map_cons,
            List.sum_cons, hval]
          exact congrArg _ ih

theorem aborts_only_lock (run : (system build ids owner).Reachable s)
    {a : Action Tid} (h : exec build ids s a = .error .aborted) :
    ∃ i, a = .lock (.next i) ∧ s.lock.pc i = .lockRead ∧
      (s.lock.won i = true ∨ owner = ids.self i) := by
  have hlock := lock_part.reachable run
  cases a with
  | lock a =>
      have hexec : SpinMutex.exec build ids s.lock a = .error .aborted := by
        rw [exec] at h
        split at h
        · cases h
        · exact Code.error_of_bind_pure h
      cases a with
      | call i c =>
          rw [SpinMutex.exec] at hexec
          split at hexec
          · split at hexec <;> cases hexec
          · cases hexec
      | next i =>
          have owned : Owned ids s.lock :=
            (owned_inductive build ids owner).reachable hlock
          have hpc := aborts_only_lockRead build ids owned hexec
          have howner : s.lock.owner = ids.self i := by
            change advance build ids s.lock i = .error .aborted at hexec
            by_contra hne
            simp [advance, hpc, invariant, hne] at hexec
          exact ⟨i, rfl, hpc,
            (explained_reachable build ids hlock i).stale howner⟩
  | readStart i now =>
      rw [exec] at h
      split at h <;> cases h
  | readEnd i now =>
      rw [exec] at h
      split at h
      · cases h
      · split at h
        · cases PerfCounter.exec_blocked (Code.error_of_bind_pure h)
        · cases h
  | count i => cases PerfCounter.exec_blocked (Code.error_of_bind_pure h)

/--
The mutex behaves as without the statistics, and a check only fails where a
thread locks what it has, unless the constructor left its identity in `owner_`.
Whoever updates the counter has the mutex, and no call of `Update` makes more
than nine steps.  Where every `Lock` has returned, the counter is as the calls
one after the other leave it: it has their number and, unless one took 71
minutes, the time they spun.
-/
theorem spin_times_account [Fintype Tid]
    (run : (system build ids owner).Exec tr s) :
    (SpinMutex.system build ids owner).Exec (Part.history State.lock locks tr)
      s.lock ∧
    (∀ a, exec build ids s a = .error .aborted →
      ∃ i, a = .lock (.next i) ∧ s.lock.pc i = .lockRead ∧
        (s.lock.won i = true ∨ owner = ids.self i)) ∧
    (∀ i, s.timing i = true → s.lock.won i = true) ∧
    (∀ i, updateSteps i tr ≤ 9) ∧
    ((∀ i, s.timing i = false) →
      s.stat.counter = PerfCounter.updatedAll (spins tr) ∧
      s.stat.counter.count.toNat = acquired tr % 2 ^ 64 ∧
      (Meets Fits tr → s.stat.counter.val.toNat = spun tr % 2 ^ 64)) := by
  have account := account_exec run
  have hcounter := PerfCounter.accounted_exec (counter_part.exec run)
  rw [begun_eq] at hcounter
  refine ⟨lock_part.exec run, fun a => aborts_only_lock run.reachable,
    fun i => (timed_reachable run.reachable).won,
    fun i => (Nat.le_add_right _ _).trans (account.steps i), fun returned => ?_⟩
  have hidle : ∀ i, s.stat.pc i = .idle := fun i =>
    (timing_eq_false.mp (returned i)).2
  have hnone : ∀ i, s.pending i = false := fun i =>
    (Bool.or_eq_false_iff.mp (returned i)).1
  refine ⟨hcounter.counter_eq hidle (List.Perm.refl _), ?_, fun fits => ?_⟩
  · rw [account.even hnone]
    exact hcounter.count_eq hidle
  · rw [← sum_spins fits]
    exact hcounter.val.settled (fun i => by rw [hidle i]; rfl)
      s.stat.counter.val.toNat_lt

theorem two_locks_account :
    ∃ tr s, (system ⟨true, false⟩ twoThreads 1).Exec tr s ∧
      s.stat.counter.count.toNat = 2 ∧ s.stat.counter.val.toNat = 5 ∧
      updateSteps 0 tr = 7 ∧ ∀ i, updateSteps i tr ≤ 9 := by
  obtain ⟨tr, s, run, htest⟩ : ∃ tr s,
      (system ⟨true, false⟩ twoThreads 1).Exec tr s ∧
        decide ((∀ i, s.timing i = false) ∧ Meets Fits tr ∧
          acquired tr = 2 ∧ spun tr = 5 ∧ updateSteps 0 tr = 7) = true :=
    Exec.ofRecord (exec ⟨true, false⟩ twoThreads) (initial (Fin 2) 1)
      (List.flatten [[.lock (.call 0 .lock), .lock (.next 0), .readStart 0 10,
          .lock (.next 0), .lock (.next 0), .lock (.next 0),
          .lock (.call 1 .lock), .lock (.next 1), .lock (.next 1),
          .lock (.next 1), .readStart 1 11, .lock (.next 1), .readEnd 0 10],
        List.replicate 7 (.count 0), [.lock (.call 0 .unlock)],
        List.replicate 4 (.lock (.next 0)), List.replicate 3 (.lock (.next 1)),
        [.readEnd 1 16], List.replicate 7 (.count 1)])
      (fun r => decide ((∀ i, r.2.timing i = false) ∧ Meets Fits r.1 ∧
        acquired r.1 = 2 ∧ spun r.1 = 5 ∧ updateSteps 0 r.1 = 7))
      rfl (by decide)
  obtain ⟨hreturned, hfits, hacquired, hspun, hseven⟩ := of_decide_eq_true htest
  obtain ⟨-, -, -, hnine, haccount⟩ := spin_times_account run
  obtain ⟨-, hcount, hval⟩ := haccount hreturned
  rw [hacquired] at hcount
  have hval := hval hfits
  rw [hspun] at hval
  exact ⟨tr, s, run, hcount, hval, hseven, hnine⟩

end Iocore.SpinMutex.SpinTime
