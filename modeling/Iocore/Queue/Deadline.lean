import Iocore.Queue.TimedPop
import Iocore.Time

/-!
# The deadlines of a timed pop

The queue with a clock.  A thread that is about to lock or to wait with a
timeout first computes the deadline of that one call from what the clock shows
then; a timeout is reported only when the clock has reached it.  `Pop(ms)`
computes a deadline for the lock and another one on every turn of its loop,
each `ms` after the moment it is computed.

Without the clock these are the runs of the queue, and every run of the queue
is one of them.
-/

namespace Iocore.Queue

open Foundation Foundation.System Pthread Time

variable {S T : Type}

def Pc.beginsWait : Pc T → Option UInt32
  | .popLock (.timed ms) | .popWait (.timed ms) => some ms
  | _ => none

def Pc.timeout : Pc T → Option UInt32
  | .popLock (.timed ms) | .popWait (.timed ms) | .popAsleep (.timed ms) => some ms
  | _ => none

variable {Tid : Type} [DecidableEq Tid]

/-! ## From one control point of a timed call to the next -/

theorem leads_timeout {maxSpin : Nat} {pc pc' : Pc T}
    (h : (code maxSpin pc).Leads pc') {ms : UInt32} (before : pc.timeout = some ms)
    (after : pc'.timeout.isSome = true) :
    pc = .popWait (.timed ms) ∧ pc' = .popAsleep (.timed ms) := by
  cases leads_cases h with
  | wait kind =>
      cases kind <;> cases before
      exact ⟨rfl, rfl⟩
  | test | lockExpired | woken | waitExpired => cases after
  | _ => cases before

theorem beginsWait_timeout {pc : Pc T} {ms : UInt32}
    (h : pc.beginsWait = some ms) : pc.timeout = some ms ∧ pc.asleep = false := by
  cases pc with
  | popLock kind | popWait kind =>
      cases kind <;> cases h
      exact ⟨rfl, rfl⟩
  | _ => cases h

namespace StepCases

variable {v : Variant S T} {q q' : State Tid S T} {b : Action Tid T} {j : Tid}

theorem timeout_cases (h : StepCases v q q' b) {ms : UInt32}
    (before : (q.pc j).timeout = some ms)
    (after : (q'.pc j).timeout.isSome = true) :
    (∀ c, b ≠ .call j c) ∧ (q'.pc j = q.pc j ∨
      q.pc j = .popWait (.timed ms) ∧ q'.pc j = .popAsleep (.timed ms)) := by
  constructor
  · rintro c rfl
    cases h with
    | call i c result pc idle entry lock container pcs =>
        rw [idle] at before
        cases before
  rcases (h.flow j).leads with stays | ⟨c, result, idle, -⟩ | leads | ⟨-, -, leaves⟩
  · exact .inl stays
  · rw [idle] at before
    cases before
  · exact .inr (leads_timeout leads before after)
  · rw [leaves] at after
    cases after

theorem timeout_eq (h : StepCases v q q' b) {ms : UInt32}
    (before : (q.pc j).timeout = some ms)
    (after : (q'.pc j).timeout.isSome = true) :
    (q'.pc j).timeout = some ms := by
  obtain ⟨-, stays | ⟨-, sleeps⟩⟩ := h.timeout_cases before after
  · rw [stays, before]
  · rw [sleeps]
    rfl

theorem asleep_cases (h : StepCases v q q' b) {kind : PopKind}
    (after : q'.pc j = .popAsleep kind) :
    q.pc j = .popAsleep kind ∨ b = .next j ∧ q.pc j = .popWait kind := by
  by_cases hnext : b = .next j
  · subst hnext
    have leads := (h.flow j).leads_of_next
    exact .inr ⟨rfl, leads_before (after ▸ leads) rfl⟩
  left
  cases h.flow j with
  | same label noCall stays => exact stays ▸ after
  | entry c result label before enters =>
      rw [after] at enters
      cases entry_entered enters
  | aside label noCall empty plain leads =>
      -- a thread that goes to sleep has held the lock
      have hwaits := leads_before (after ▸ leads) rfl
      rw [hwaits] at empty
      cases empty
  | unwind label asleep leaves =>
      rw [after] at leaves
      cases leaves
  | plain label | pop t label | miss label | test label => exact absurd label hnext

theorem expire_cases {i : Tid} (h : StepCases v q q' (.expire i)) :
    (∃ ms, (q.pc i).timeout = some ms) ∧ (q'.pc i).timeout = none := by
  cases h with
  | expireLock _ ms next expired code lock container pcs =>
      rw [pcs, Function.update_self]
      cases hpc : q.pc i with
      | popLock kind =>
          cases kind <;> rw [hpc] at code <;> cases code
          exact ⟨⟨_, rfl⟩, rfl⟩
      | popAsleep kind => cases kind <;> rw [hpc] at code <;> cases code
      | _ => rw [hpc] at code; cases code
  | expireWait _ woken expired unwinding code lock container pcs =>
      rw [pcs, Function.update_self]
      cases hpc : q.pc i with
      | popAsleep kind =>
          cases kind <;> rw [hpc] at code <;> cases code
          exact ⟨⟨_, rfl⟩, rfl⟩
      | popLock kind => cases kind <;> rw [hpc] at code <;> cases code
      | _ => rw [hpc] at code; cases code

theorem next_asleep (h : StepCases v q q' (.next j)) {ms : UInt32}
    (before : (q.pc j).timeout = some ms)
    (after : (q'.pc j).timeout.isSome = true) : (q'.pc j).asleep = true := by
  obtain ⟨-, sleeps⟩ := leads_timeout (h.flow j).leads_of_next before after
  rw [sleeps]
  rfl

end StepCases

/-! ## The queue with a clock -/

structure Wait where
  began : ℕ
  deadline : ℕ
  deriving DecidableEq, Repr

/-- `entered` is when the current call of each thread was made. -/
structure Timed (Tid S T : Type) where
  queue : State Tid S T
  clock : ℕ
  entered : Tid → ℕ
  wait : Tid → Option Wait

inductive TimedAction (Tid T : Type) where
  | step (a : Action Tid T)
  | tick (now : ℕ)
  | getTimeSpec (i : Tid)
  deriving DecidableEq, Repr

/-- No timed call is made without a deadline, and none ends before it. -/
def Timed.allows (s : Timed Tid S T) : Action Tid T → Bool
  | .next i => (s.queue.pc i).beginsWait.isNone || (s.wait i).isSome
  | .expire i => (s.wait i).any fun wait => decide (wait.deadline ≤ s.clock)
  | _ => true

def Timed.after (s : Timed Tid S T) (a : Action Tid T) (queue : State Tid S T) :
    Timed Tid S T where
  queue := queue
  clock := s.clock
  entered i :=
    match a with
    | .call j _ => if i = j then s.clock else s.entered i
    | _ => s.entered i
  wait i := if (queue.pc i).timeout.isSome then s.wait i else none

def Timed.begin (s : Timed Tid S T) (i : Tid) (ms : UInt32) : Timed Tid S T :=
  { s with wait := Function.update s.wait i (some ⟨s.clock, deadline s.clock ms⟩) }

@[simp] theorem Timed.begin_wait (s : Timed Tid S T) (i : Tid) (ms : UInt32) :
    (s.begin i ms).wait i = some ⟨s.clock, deadline s.clock ms⟩ :=
  Function.update_self ..

theorem Timed.begin_wait_of_ne (s : Timed Tid S T) {i j : Tid} (hj : j ≠ i)
    (ms : UInt32) : (s.begin i ms).wait j = s.wait j :=
  Function.update_of_ne hj ..

theorem Timed.after_entered (s : Timed Tid S T) {b : Action Tid T}
    (queue : State Tid S T) {i : Tid} (noCall : ∀ c, b ≠ .call i c) :
    (s.after b queue).entered i = s.entered i := by
  cases b with
  | call j c =>
      refine if_neg ?_
      rintro rfl
      exact noCall c rfl
  | _ => rfl

theorem Timed.after_wait (s : Timed Tid S T) {b : Action Tid T}
    {queue : State Tid S T} {i : Tid} {wait : Wait} :
    (s.after b queue).wait i = some wait ↔
      (queue.pc i).timeout.isSome = true ∧ s.wait i = some wait := by
  simp [Timed.after]

variable [Fintype Tid] (build : Build) (v : Variant S T)

def Timed.exec (s : Timed Tid S T) : TimedAction Tid T → Code (Timed Tid S T)
  | .step a =>
      if s.allows a then do
        let queue ← Queue.exec build v s.queue a
        return s.after a queue
      else .error .blocked
  | .tick now =>
      if s.clock ≤ now then .ok { s with clock := now } else .error .blocked
  | .getTimeSpec i =>
      match (s.queue.pc i).beginsWait, s.wait i with
      | some ms, none => .ok (s.begin i ms)
      | _, _ => .error .blocked

def timedInitial (Tid : Type) (clock : ℕ) : Timed Tid S T where
  queue := initial build v Tid
  clock := clock
  entered _ := clock
  wait _ := none

def timed (Tid : Type) [DecidableEq Tid] [Fintype Tid] :
    System (Timed Tid S T) (TimedAction Tid T) :=
  .ofFunction (fun s => ∃ clock, s = timedInitial build v Tid clock)
    (Timed.exec build v)

/-! ## The steps of the clocked queue -/

inductive TimedCases (s s' : Timed Tid S T) : TimedAction Tid T → Prop
  | step (a : Action Tid T) (queue : State Tid S T) (allowed : s.allows a = true)
      (step : (system build v Tid).step s.queue a queue)
      (after : s' = s.after a queue) : TimedCases s s' (.step a)
  | tick (now : ℕ) (later : s.clock ≤ now)
      (ticked : s' = { s with clock := now }) : TimedCases s s' (.tick now)
  | getTimeSpec (i : Tid) (ms : UInt32)
      (begins : (s.queue.pc i).beginsWait = some ms) (fresh : s.wait i = none)
      (begun : s' = s.begin i ms) : TimedCases s s' (.getTimeSpec i)

variable {build v} {s s' : Timed Tid S T} {a : TimedAction Tid T}

theorem timed_cases (h : (timed build v Tid).step s a s') :
    TimedCases build v s s' a := by
  change Timed.exec build v s a = .ok s' at h
  cases a with
  | step a =>
      simp only [Timed.exec] at h
      split at h
      · rename_i hallowed
        obtain ⟨queue, hstep, hafter⟩ := Code.bind_eq_ok.mp h
        cases hafter
        exact .step a queue hallowed hstep rfl
      · cases h
  | tick now =>
      simp only [Timed.exec] at h
      split at h
      · rename_i hlater
        cases h
        exact .tick now hlater rfl
      · cases h
  | getTimeSpec i =>
      simp only [Timed.exec] at h
      split at h
      · rename_i ms hbegins hfresh
        cases h
        exact .getTimeSpec i ms hbegins hfresh rfl
      · cases h

theorem timed_step (b : Action Tid T) {queue : State Tid S T}
    (allowed : s.allows b = true)
    (step : (system build v Tid).step s.queue b queue) :
    (timed build v Tid).step s (.step b) (s.after b queue) := by
  change exec build v s.queue b = .ok queue at step
  change Timed.exec build v s (.step b) = .ok (s.after b queue)
  rw [Timed.exec, if_pos allowed, step]
  rfl

theorem timed_tick {now : ℕ} (later : s.clock ≤ now) :
    (timed build v Tid).step s (.tick now) { s with clock := now } :=
  if_pos later

theorem timed_getTimeSpec (i : Tid) (ms : UInt32)
    (begins : (s.queue.pc i).beginsWait = some ms) (fresh : s.wait i = none) :
    (timed build v Tid).step s (.getTimeSpec i) (s.begin i ms) := by
  change Timed.exec build v s (.getTimeSpec i) = .ok (s.begin i ms)
  simp only [Timed.exec, begins, fresh]

/-- Without the clock, the runs are those of the queue. -/
theorem timed_simulation : (timed build v Tid).Simulation (system build v Tid)
    (fun _ a => match a with
      | .step b => some b
      | _ => none)
    (fun s queue => s.queue = queue) where
  init := by
    rintro s ⟨clock, rfl⟩
    exact ⟨_, rfl, rfl⟩
  step := by
    rintro s queue a s' - rfl hstep
    cases timed_cases hstep with
    | step b queue allowed step after => exact ⟨queue, step, after ▸ rfl⟩
    | tick now later ticked => exact ticked ▸ rfl
    | getTimeSpec i ms begins fresh begun => exact begun ▸ rfl

theorem Timed.queue_reachable (run : (timed build v Tid).Reachable s) :
    (system build v Tid).Reachable s.queue := by
  obtain ⟨tr, exec⟩ := run
  obtain ⟨tr', queue, habs, -, rfl⟩ := timed_simulation.exec exec
  exact habs.reachable

/-! ## What is known of a deadline -/

structure Dated (s : Timed Tid S T) : Prop where
  entered : ∀ i, s.entered i ≤ s.clock
  wait : ∀ i wait, s.wait i = some wait → ∃ ms,
    (s.queue.pc i).timeout = some ms ∧
      wait.deadline = deadline wait.began ms ∧
      s.entered i ≤ wait.began ∧ wait.began ≤ s.clock
  asleep : ∀ i ms, s.queue.pc i = .popAsleep (.timed ms) →
    (s.wait i).isSome = true

theorem dated_step (hlocked : Locked s.queue) (h : Dated s) {b : Action Tid T}
    {queue : State Tid S T} (allowed : s.allows b = true)
    (step : (system build v Tid).step s.queue b queue) :
    Dated (s.after b queue) where
  entered i := by
    cases b with
    | call j c =>
        change (if i = j then s.clock else s.entered i) ≤ s.clock
        split
        · exact le_rfl
        · exact h.entered i
    | _ => exact h.entered i
  wait i wait hwait := by
    have hcases := step_cases build hlocked step
    obtain ⟨hsome, hbefore⟩ := s.after_wait.mp hwait
    obtain ⟨ms, htimeout, hdeadline, hentered, hbegan⟩ := h.wait i wait hbefore
    obtain ⟨noCall, -⟩ := hcases.timeout_cases htimeout hsome
    refine ⟨ms, hcases.timeout_eq htimeout hsome, hdeadline, ?_, hbegan⟩
    rwa [s.after_entered queue noCall]
  asleep i ms hpc := by
    have hcases := step_cases build hlocked step
    have htimeout : (queue.pc i).timeout.isSome = true := by
      rw [show queue.pc i = .popAsleep (.timed ms) from hpc]
      rfl
    rw [show (s.after b queue).wait i = s.wait i from if_pos htimeout]
    rcases hcases.asleep_cases hpc with hasleep | ⟨rfl, hwaits⟩
    · exact h.asleep i ms hasleep
    · simpa [Timed.allows, hwaits, Pc.beginsWait] using allowed

theorem dated (run : (timed build v Tid).Reachable s) : Dated s := by
  refine run.invariant ?_ ?_
  · rintro s ⟨clock, rfl⟩
    exact ⟨fun i => le_rfl, (fun i wait h => by cases h), fun i ms h => by cases h⟩
  · intro s a s' run h hstep
    have hlocked := (locked_inductive build).reachable (Timed.queue_reachable run)
    cases timed_cases hstep with
    | step b queue allowed step after =>
        exact after ▸ dated_step hlocked h allowed step
    | tick now later ticked =>
        subst ticked
        refine ⟨fun i => (h.entered i).trans later, fun i wait hwait => ?_, h.asleep⟩
        obtain ⟨ms, htimeout, hdeadline, hentered, hbegan⟩ := h.wait i wait hwait
        exact ⟨ms, htimeout, hdeadline, hentered, hbegan.trans later⟩
    | getTimeSpec i ms begins fresh begun =>
        subst begun
        obtain ⟨htimeout, -⟩ := beginsWait_timeout begins
        refine ⟨h.entered, fun j wait hwait => ?_, fun j ms' hpc => ?_⟩
        · by_cases hj : j = i
          · subst hj
            rw [Timed.begin_wait] at hwait
            cases hwait
            exact ⟨ms, htimeout, rfl, h.entered j, le_rfl⟩
          · rw [s.begin_wait_of_ne hj] at hwait
            exact h.wait j wait hwait
        · by_cases hj : j = i
          · subst hj
            rw [Timed.begin_wait]
            rfl
          · rw [s.begin_wait_of_ne hj]
            exact h.asleep j ms' hpc

/-! ## Every run of the queue takes some time -/

private theorem begin_timed_call (run : (timed build v Tid).Reachable s) {i : Tid}
    {ms : UInt32} (htimeout : (s.queue.pc i).timeout = some ms) :
    ∃ s₁ wait, (timed build v Tid).Reachable s₁ ∧ s₁.queue = s.queue ∧
      s₁.wait i = some wait ∧ ∀ j ≠ i, s₁.wait j = s.wait j := by
  cases hwait : s.wait i with
  | some wait => exact ⟨s, wait, run, rfl, hwait, fun j _ => rfl⟩
  | none =>
      have hbegins : (s.queue.pc i).beginsWait = some ms := by
        cases hpc : s.queue.pc i with
        | popLock kind | popWait kind =>
            rw [hpc] at htimeout
            cases kind <;> cases htimeout
            rfl
        | popAsleep kind =>
            rw [hpc] at htimeout
            cases kind <;> cases htimeout
            have hsome := (dated run).asleep i ms hpc
            rw [hwait] at hsome
            cases hsome
        | _ => rw [hpc] at htimeout; cases htimeout
      exact ⟨_, _, run.next (timed_getTimeSpec i ms hbegins hwait), rfl,
        s.begin_wait i ms, fun j hj => s.begin_wait_of_ne hj ms⟩

private theorem await_deadline (run : (timed build v Tid).Reachable s) {i : Tid}
    {ms : UInt32} (htimeout : (s.queue.pc i).timeout = some ms) :
    ∃ s₁ wait, (timed build v Tid).Reachable s₁ ∧ s₁.queue = s.queue ∧
      s₁.wait i = some wait ∧ wait.deadline ≤ s₁.clock ∧
      ∀ j ≠ i, s₁.wait j = s.wait j := by
  obtain ⟨s₁, wait, run₁, hqueue, hwait, hothers⟩ := begin_timed_call run htimeout
  exact ⟨_, wait, run₁.next (timed_tick (le_max_left s₁.clock wait.deadline)),
    hqueue, hwait, le_max_right .., hothers⟩

private theorem allow_step (run : (timed build v Tid).Reachable s)
    {b : Action Tid T} {queue : State Tid S T}
    (step : (system build v Tid).step s.queue b queue) :
    ∃ s₁, (timed build v Tid).Reachable s₁ ∧ s₁.queue = s.queue ∧
      s₁.allows b = true ∧
      ∀ j, s₁.wait j = s.wait j ∨ b = .next j ∨ b = .expire j := by
  have hlocked := (locked_inductive build).reachable (Timed.queue_reachable run)
  have hcases := step_cases build hlocked step
  have here (hallowed : s.allows b = true) : ∃ s₁, (timed build v Tid).Reachable s₁ ∧
      s₁.queue = s.queue ∧ s₁.allows b = true ∧
      ∀ j, s₁.wait j = s.wait j ∨ b = .next j ∨ b = .expire j :=
    ⟨s, run, rfl, hallowed, fun j => .inl rfl⟩
  cases b with
  | next i =>
      cases hbegins : (s.queue.pc i).beginsWait with
      | none => exact here (by simp [Timed.allows, hbegins])
      | some ms =>
          obtain ⟨s₁, wait, run₁, hqueue, hwait, -, hothers⟩ :=
            await_deadline run (beginsWait_timeout hbegins).1
          refine ⟨s₁, run₁, hqueue, by simp [Timed.allows, hwait], fun j => ?_⟩
          by_cases hj : j = i
          · exact .inr (.inl (hj ▸ rfl))
          · exact .inl (hothers j hj)
  | expire i =>
      obtain ⟨⟨ms, htimeout⟩, -⟩ := hcases.expire_cases
      obtain ⟨s₁, wait, run₁, hqueue, hwait, hpassed, hothers⟩ :=
        await_deadline run htimeout
      refine ⟨s₁, run₁, hqueue, by simp [Timed.allows, hwait, hpassed], fun j => ?_⟩
      by_cases hj : j = i
      · exact .inr (.inr (hj ▸ rfl))
      · exact .inl (hothers j hj)
  | call i c => exact here rfl
  | wake i => exact here rfl
  | signal i woken => exact here rfl
  | cancel i => exact here rfl
  | cancelAct i => exact here rfl

/-- Every state of the queue is reached with the clock, too. -/
theorem timed_complete {queue : State Tid S T}
    (run : (system build v Tid).Reachable queue) :
    ∃ s, (timed build v Tid).Reachable s ∧ s.queue = queue ∧
      ∀ i, (s.wait i).isSome = true → (queue.pc i).asleep = true := by
  obtain ⟨tr, exec⟩ := run
  induction exec with
  | start init =>
      cases init
      exact ⟨timedInitial build v Tid 0, .start ⟨0, rfl⟩, rfl, fun i h => by cases h⟩
  | @next tr queue queue' b exec step ih =>
      obtain ⟨s, run, rfl, hlazy⟩ := ih
      obtain ⟨s₁, run₁, hqueue, hallowed, hothers⟩ := allow_step run step
      rw [← hqueue] at step
      have hlocked :=
        (locked_inductive build).reachable (Timed.queue_reachable run₁)
      have hcases := step_cases build hlocked step
      refine ⟨_, run₁.next (timed_step b hallowed step), rfl, fun i hsome => ?_⟩
      obtain ⟨wait, hwait⟩ := Option.isSome_iff_exists.mp hsome
      obtain ⟨hafter, hbefore⟩ := s₁.after_wait.mp hwait
      obtain ⟨ms, htimeout, -⟩ := (dated run₁).wait i wait hbefore
      rcases hothers i with hkept | rfl | rfl
      · obtain ⟨-, stays | ⟨-, sleeps⟩⟩ := hcases.timeout_cases htimeout hafter
        · rw [stays, hqueue]
          exact hlazy i (by rw [← hkept, hbefore]; rfl)
        · rw [sleeps]
          rfl
      · exact hcases.next_asleep htimeout hafter
      · rw [hcases.expire_cases.2] at hafter
        cases hafter

/-! ## How long a call may wait -/

def LastDeadline (tr : History (Timed Tid S T) (TimedAction Tid T)) (i : Tid)
    (y : Timed Tid S T) : Prop :=
  ∃ later past, tr = later ++ (y, .getTimeSpec i) :: past ∧
    ∀ p ∈ later, p.2 ≠ .getTimeSpec i

omit [DecidableEq Tid] [Fintype Tid] in
theorem LastDeadline.cons {tr : History (Timed Tid S T) (TimedAction Tid T)}
    {i : Tid} {y : Timed Tid S T} (h : LastDeadline tr i y)
    (ha : a ≠ .getTimeSpec i) : LastDeadline ((s, a) :: tr) i y := by
  obtain ⟨later, past, rfl, hlater⟩ := h
  exact ⟨(s, a) :: later, past, rfl, List.forall_mem_cons.mpr ⟨ha, hlater⟩⟩

theorem began_lastDeadline {tr : History (Timed Tid S T) (TimedAction Tid T)}
    (run : (timed build v Tid).Exec tr s) : ∀ i wait, s.wait i = some wait →
      ∃ y, LastDeadline tr i y ∧ wait.began = y.clock := by
  induction run with
  | start init =>
      obtain ⟨clock, rfl⟩ := init
      intro i wait hwait
      cases hwait
  | @next tr s s' a run step ih =>
      intro i wait hwait
      cases timed_cases step with
      | step b queue allowed step after =>
          subst after
          obtain ⟨y, hlast, hbegan⟩ := ih i wait (s.after_wait.mp hwait).2
          exact ⟨y, hlast.cons (by simp), hbegan⟩
      | tick now later ticked =>
          subst ticked
          obtain ⟨y, hlast, hbegan⟩ := ih i wait hwait
          exact ⟨y, hlast.cons (by simp), hbegan⟩
      | getTimeSpec j ms begins fresh begun =>
          subst begun
          by_cases hj : i = j
          · subst hj
            rw [Timed.begin_wait] at hwait
            cases hwait
            exact ⟨s, ⟨[], tr, rfl, by simp⟩, rfl⟩
          · rw [s.begin_wait_of_ne hj] at hwait
            obtain ⟨y, hlast, hbegan⟩ := ih i wait hwait
            refine ⟨y, hlast.cons ?_, hbegan⟩
            rintro ⟨⟩
            exact hj rfl

/-- Thread `i` waits in `Lock(ms)`, past its assertion, or in `Wait(lock, ms)`. -/
def InTimedWait (build : Build) (s : Timed Tid S T) (i : Tid) (ms : UInt32) :
    Prop :=
  s.queue.pc i = .popAsleep (.timed ms) ∨
    s.queue.pc i = .popLock (.timed ms) ∧ (s.wait i).isSome = true ∧
      (build.debugBuild = true → ms ≠ 0)

/-- A timed wait, with the deadline that was computed for it in state `y`. -/
structure WaitsUntil (build : Build) (v : Variant S T)
    (tr : History (Timed Tid S T) (TimedAction Tid T)) (s : Timed Tid S T)
    (i : Tid) (ms : UInt32) (wait : Wait) (y : Timed Tid S T) : Prop where
  kept : s.wait i = some wait
  last : LastDeadline tr i y
  deadline_eq : wait.deadline = deadline y.clock ms
  sinceEntry : s.entered i ≤ y.clock
  untilNow : y.clock ≤ s.clock
  inTime_iff : wait.deadline ≤ deadline (s.entered i) ms ↔
    y.clock = s.entered i
  timesOut_iff : (∃ s', (timed build v Tid).step s (.step (.expire i)) s') ↔
    wait.deadline ≤ s.clock

theorem expire_iff {i : Tid} {ms : UInt32} {wait : Wait}
    (waits : InTimedWait build s i ms) (hwait : s.wait i = some wait) :
    (∃ s', (timed build v Tid).step s (.step (.expire i)) s') ↔
      wait.deadline ≤ s.clock := by
  have hallows : s.allows (.expire i) = true ↔ wait.deadline ≤ s.clock := by
    simp [Timed.allows, hwait]
  constructor
  · rintro ⟨s', step⟩
    cases timed_cases step with
    | step b queue allowed step after => exact hallows.mp allowed
  · intro hpassed
    obtain ⟨queue, hstep⟩ :
        ∃ queue, (system build v Tid).step s.queue (.expire i) queue := by
      rcases waits with hpc | ⟨hpc, -, hms⟩
      · exact ⟨s.queue.goto i (.popExpired ms), by
          change expire build v s.queue i = _
          simp only [expire, hpc, code]⟩
      · have hassert : build.assert (ms ≠ 0) = .ok () := by
          cases hdebug : build.debugBuild with
          | true => simp [hms hdebug]
          | false => simp [Build.assert, hdebug]
        refine ⟨{ s.queue with lock := s.queue.lock }.goto i
          (.idle (.popped (.timed ms) none)), ?_⟩
        change expire build v s.queue i = _
        simp only [expire, hpc, code, PThreadMutex.lockFor, hassert,
          mutexTimedlock, if_true, Code.ok_bind]
        rfl
    exact ⟨_, timed_step (.expire i) (hallows.mpr hpassed) hstep⟩

theorem timedPop_overtime (n : ℕ) :
    ∃ s wait, (timed defaultBuild (inQueue defaultBuild (Fin 1))
        (Fin 2)).Reachable s ∧ s.queue.pc 0 = .popWait (.timed 1) ∧
      s.wait 0 = some wait ∧ deadline (s.entered 0) 1 + n ≤ wait.deadline := by
  obtain ⟨s, run, hqueue, -⟩ := timed_complete (waiting_reachable 0)
  have hentered := (dated run).entered 0
  obtain ⟨queue, clock, entered, wait⟩ := s
  cases hqueue
  have ticked := run.next (timed_tick (Nat.le_add_right clock n))
  have woken := ticked.next (timed_step (.wake 0) rfl rfl)
  have locked := woken.next (timed_step (.next 0) rfl rfl)
  have missed := locked.next (timed_step (.next 0) rfl rfl)
  have begun := missed.next (timed_getTimeSpec 0 1 rfl rfl)
  have hlate : deadline (entered 0) 1 + n ≤ deadline (clock + n) 1 := by
    change entered 0 ≤ clock at hentered
    unfold deadline
    omega
  exact ⟨_, _, begun, rfl, rfl, hlate⟩

/-- No wait of a call goes on for longer than its timeout after the call. -/
def WithinCall (s : Timed Tid S T) : Prop :=
  ∀ i ms wait, (s.queue.pc i).timeout = some ms → s.wait i = some wait →
    wait.deadline ≤ deadline (s.entered i) ms

end Iocore.Queue
