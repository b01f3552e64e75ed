import Iocore.Foundation.Accounting
import Iocore.Foundation.Contention
import Iocore.PerfCounter.Update
import Mathlib.Algebra.BigOperators.Ring.Finset

/-!
# Updates terminate

No loop of `Update` has a measure of its own, as other calls keep changing the
field.  But each loop is a contended exchange loop: a failed exchange means
that another call has succeeded since the load, and a call succeeds at most
once, because its own exchange makes the field as good as its value.  So a
call goes round each loop at most once for every call there is, and finitely
many calls take finitely many steps.
-/

namespace Iocore.PerfCounter

open Foundation Foundation.System

inductive Loop where
  | min
  | max
  deriving DecidableEq, Repr

namespace Loop

def cell : Loop → PerfCounter → UInt64
  | min, counter => counter.min
  | max, counter => counter.max

def better : Loop → UInt64 → UInt64 → Bool
  | min, val, minCount => val < minCount
  | max, val, maxCount => val > maxCount

def held : Loop → Pc → Option UInt64
  | min, pc => pc.heldMin
  | max, pc => pc.heldMax

def loaded : Loop → Pc → Option UInt64
  | min, .exchangeMin _ minCount _ => some minCount
  | max, .exchangeMax _ maxCount _ => some maxCount
  | _, _ => none

def atLoad : Loop → Pc → Bool
  | min, .loadMin _ => true
  | max, .loadMax _ => true
  | _, _ => false

variable {Tid : Type}

/-- What a step of the system is for the loop, if anything. -/
def event (loop : Loop) (s : State Tid) : Action Tid → Option (LoopEvent Tid)
  | .update i _ => some (.begin i)
  | .next i =>
      match loop.loaded (s.pc i) with
      | some loaded =>
          if loop.cell s.counter = loaded then some (.success i)
          else some (.failure i)
      | none => if loop.atLoad (s.pc i) then some (.load i) else none

def events (loop : Loop) (tr : History (State Tid) (Action Tid)) :
    List (LoopEvent Tid) :=
  observed loop.event tr

def part (loop : Loop) (cell : UInt64) (pc : Pc) : Contender where
  eligible := (loop.held pc).any (loop.better · cell)
  stale := (loop.loaded pc).map (· ≠ cell)

def view (loop : Loop) (s : State Tid) : Tid → Contender :=
  fun i => loop.part (loop.cell s.counter) (s.pc i)

variable [DecidableEq Tid] {loop : Loop} {s : State Tid}

theorem view_goto_self (i : Tid) (pc : Pc) (counter : PerfCounter) :
    loop.view (s.goto i pc counter) i = loop.part (loop.cell counter) pc := by
  simp [view, State.goto]

theorem view_goto_of_ne {i j : Tid} (hj : j ≠ i) (pc : Pc)
    (counter : PerfCounter) :
    loop.view (s.goto i pc counter) j =
      loop.part (loop.cell counter) (s.pc j) := by
  simp [view, State.goto, Function.update_of_ne hj]

def Follows (loop : Loop) (s : State Tid) (a : Action Tid) (s' : State Tid) :
    Prop :=
  match loop.event s a with
  | none => loop.view s' = loop.view s
  | some e => LoopStep (loop.view s) (loop.view s') e

private theorem follows_begin (i : Tid) (val : UInt32) :
    loop.Follows s (.update i val) (s.goto i (.addVal val) s.counter) := by
  refine .begin i ?_ fun j hj => view_goto_of_ne hj ..
  rw [view_goto_self]
  cases loop <;> rfl

variable {i : Tid} {before after : Pc}

private theorem follows_quiet {counter : PerfCounter} (hpc : s.pc i = before)
    (hbefore : loop.loaded before = none ∧ loop.atLoad before = false)
    (hafter : loop.loaded after = none ∧ loop.held after = loop.held before)
    (hcell : loop.cell counter = loop.cell s.counter) :
    loop.Follows s (.next i) (s.goto i after counter) := by
  have hevent : loop.event s (.next i) = none := by
    simp [event, hpc, hbefore.1, hbefore.2]
  rw [Follows, hevent]
  funext j
  by_cases hj : j = i
  · subst hj
    rw [view_goto_self, hcell, view, part, part, hpc, hafter.1, hafter.2,
      hbefore.1]
  · rw [view_goto_of_ne hj, hcell, view]

private theorem follows_load (hpc : s.pc i = before)
    (hbefore : loop.loaded before = none ∧ loop.atLoad before = true)
    (held : loop.held after = loop.held before ∨ loop.held after = none)
    (fresh : loop.loaded after = none ∨
      loop.loaded after = some (loop.cell s.counter)) :
    loop.Follows s (.next i) (s.goto i after s.counter) := by
  have hevent : loop.event s (.next i) = some (.load i) := by
    simp [event, hpc, hbefore.1, hbefore.2]
  rw [Follows, hevent]
  refine .load i ?_ ?_ fun j hj => view_goto_of_ne hj ..
  · rw [view_goto_self, view, part, part, hpc]
    rcases held with held | held
    · rw [held]
      exact id
    · simp [held]
  · rw [view_goto_self, part]
    rcases fresh with fresh | fresh <;> simp [fresh]

private theorem follows_failure {loaded : UInt64} (hpc : s.pc i = before)
    (hbefore : loop.loaded before = some loaded)
    (stale : loop.cell s.counter ≠ loaded)
    (hafter : loop.loaded after = none ∧ loop.held after = loop.held before) :
    loop.Follows s (.next i) (s.goto i after s.counter) := by
  have hevent : loop.event s (.next i) = some (.failure i) := by
    simp [event, hpc, hbefore, stale]
  rw [Follows, hevent]
  refine .failure i ?_ ?_ ?_ fun j hj => view_goto_of_ne hj ..
  · rw [view_goto_self, view, part, part, hpc, hafter.2]
    exact id
  · rw [view, part, hpc, hbefore]
    simpa using fun e : loaded = _ => stale e.symm
  · rw [view_goto_self, part, hafter.1]
    rfl

theorem better_trans {a b c : UInt64} (hab : loop.better a b = true)
    (hbc : loop.better b c = true) : loop.better a c = true := by
  cases loop with
  | min =>
      exact decide_eq_true
        (UInt64.lt_trans (of_decide_eq_true hab) (of_decide_eq_true hbc))
  | max =>
      exact decide_eq_true
        (UInt64.lt_trans (of_decide_eq_true hbc) (of_decide_eq_true hab))

theorem better_irrefl (a : UInt64) : loop.better a a = false := by
  cases loop <;> exact decide_eq_false (UInt64.lt_irrefl a)

private theorem follows_success {val : UInt64} {counter : PerfCounter}
    (hpc : s.pc i = before)
    (hbefore : loop.loaded before = some (loop.cell s.counter))
    (better : loop.better val (loop.cell s.counter) = true)
    (cell : loop.cell counter = val)
    (hafter : loop.loaded after = none ∧ loop.held after = some val)
    (held : loop.held before = some val) :
    loop.Follows s (.next i) (s.goto i after counter) := by
  have hevent : loop.event s (.next i) = some (.success i) := by
    simp [event, hpc, hbefore]
  rw [Follows, hevent]
  refine .success i ?_ ?_ ?_ ?_ (fun j hj => ?_) fun j hj => ?_
  · rw [view, part, hpc, held]
    exact better
  · rw [view, part, hpc, hbefore]
    simp
  · rw [view_goto_self, part, hafter.2, cell]
    exact better_irrefl val
  · rw [view_goto_self, part, hafter.1]
    rfl
  · rw [view_goto_of_ne hj, view, part, part, cell]
    intro heligible
    obtain ⟨w, hw, hbetter⟩ := (Option.any_eq_true _ _).mp heligible
    exact (Option.any_eq_true _ _).mpr ⟨w, hw, better_trans hbetter better⟩
  · rw [view_goto_of_ne hj, view, part, part, Option.isSome_map,
      Option.isSome_map]

theorem follows {s' : State Tid} {a : Action Tid} (h : StepCases s a s') :
    loop.Follows s a s' := by
  cases h with
  | call i val before => exact follows_begin i val
  | addVal i val before | addCount i val before =>
      cases loop <;> exact follows_quiet before ⟨rfl, rfl⟩ ⟨rfl, rfl⟩ rfl
  | addBucket i val before =>
      cases loop <;> exact follows_quiet before ⟨rfl, rfl⟩ ⟨rfl, rfl⟩ rfl
  | loadMin i val before less =>
      cases loop with
      | min => exact follows_load before ⟨rfl, rfl⟩ (.inl rfl) (.inr rfl)
      | max => exact follows_quiet before ⟨rfl, rfl⟩ ⟨rfl, rfl⟩ rfl
  | leaveMin i val before least =>
      cases loop with
      | min => exact follows_load before ⟨rfl, rfl⟩ (.inr rfl) (.inl rfl)
      | max => exact follows_quiet before ⟨rfl, rfl⟩ ⟨rfl, rfl⟩ rfl
  | exchangeMin i val less before =>
      cases loop with
      | min =>
          exact follows_success before rfl (decide_eq_true less) rfl ⟨rfl, rfl⟩
            rfl
      | max => exact follows_quiet before ⟨rfl, rfl⟩ ⟨rfl, rfl⟩ rfl
  | retryMin i val minCount less before stale =>
      cases loop with
      | min => exact follows_failure before rfl stale ⟨rfl, rfl⟩
      | max => exact follows_quiet before ⟨rfl, rfl⟩ ⟨rfl, rfl⟩ rfl
  | loadMax i val before greater =>
      cases loop with
      | min => exact follows_quiet before ⟨rfl, rfl⟩ ⟨rfl, rfl⟩ rfl
      | max => exact follows_load before ⟨rfl, rfl⟩ (.inl rfl) (.inr rfl)
  | leaveMax i val before greatest =>
      cases loop with
      | min => exact follows_quiet before ⟨rfl, rfl⟩ ⟨rfl, rfl⟩ rfl
      | max => exact follows_load before ⟨rfl, rfl⟩ (.inr rfl) (.inl rfl)
  | exchangeMax i val greater before =>
      cases loop with
      | min => exact follows_quiet before ⟨rfl, rfl⟩ ⟨rfl, rfl⟩ rfl
      | max =>
          exact follows_success before rfl (decide_eq_true greater) rfl
            ⟨rfl, rfl⟩ rfl
  | retryMax i val maxCount greater before stale =>
      cases loop with
      | min => exact follows_quiet before ⟨rfl, rfl⟩ ⟨rfl, rfl⟩ rfl
      | max => exact follows_failure before rfl stale ⟨rfl, rfl⟩

theorem simulation (loop : Loop) :
    (system Tid).Simulation (contention Tid) loop.event
      fun s f => f = loop.view s where
  init := by
    rintro s rfl
    refine ⟨_, rfl, ?_⟩
    cases loop <;> rfl
  step := by
    rintro s _ a s' _ rfl hstep
    have hfollows := loop.follows (step_cases hstep)
    unfold Follows at hfollows
    cases hevent : loop.event s a with
    | none =>
        rw [hevent] at hfollows
        exact hfollows.symm
    | some e =>
        rw [hevent] at hfollows
        exact ⟨_, hfollows, rfl⟩

omit [DecidableEq Tid] in
theorem events_cons (loop : Loop) (s : State Tid) (a : Action Tid)
    (tr : History (State Tid) (Action Tid)) :
    loop.events ((s, a) :: tr) = (loop.event s a).toList ++ loop.events tr :=
  observed_cons ..

omit [DecidableEq Tid] in
theorem event_actor {a : Action Tid} {e : LoopEvent Tid}
    (h : loop.event s a = some e) : e.actor = a.actor := by
  cases a with
  | update i val =>
      cases h
      rfl
  | next i =>
      simp only [event] at h
      split at h <;> split at h <;> cases h <;> rfl

omit [DecidableEq Tid] in
theorem countP_isBegin_events (loop : Loop)
    (tr : History (State Tid) (Action Tid)) :
    (loop.events tr).countP LoopEvent.isBegin = (begun tr).length := by
  induction tr with
  | nil => rfl
  | cons p tr ih =>
      obtain ⟨s, a⟩ := p
      rw [events, observed_cons, List.countP_append, begun, observed_cons,
        List.length_append]
      refine congrArg₂ _ ?_ ih
      cases a with
      | update i val => rfl
      | next i =>
          simp only [event]
          split
          · split <;> rfl
          · split <;> rfl

theorem bounded [Fintype Tid] (loop : Loop)
    {tr : History (State Tid) (Action Tid)} {s : State Tid}
    (run : (system Tid).Exec tr s) :
    LoopBounded (begun tr).length (loop.events tr) := by
  obtain ⟨tr', f, run', hevents, -⟩ := loop.simulation.exec run
  have hbounded := loopBounded_exec run'
  rw [hevents] at hbounded
  rw [← loop.countP_isBegin_events tr]
  exact hbounded

end Loop

/-! ## Counting the steps -/

def Pc.stage : Pc → ℕ
  | .addVal _ => 1
  | .addCount _ => 2
  | .loadMin _ => 3
  | .exchangeMin _ _ _ | .loadMax _ => 4
  | .exchangeMax _ _ _ | .addBucket _ => 5
  | .idle => 6

variable {Tid : Type} [DecidableEq Tid]

def steps (i : Tid) (tr : History (State Tid) (Action Tid)) : ℕ :=
  tr.countP fun p => decide (i = p.2.actor)

def calls (i : Tid) (tr : History (State Tid) (Action Tid)) : ℕ :=
  (Loop.min.events tr).count (.begin i)

def progress (i : Tid) (tr : History (State Tid) (Action Tid)) (pc : Pc) : ℕ :=
  pc.stage + 2 * bodies i (Loop.min.events tr) +
    2 * bodies i (Loop.max.events tr)

theorem bodies_next (loop : Loop) (s : State Tid) (i : Tid)
    (tr : History (State Tid) (Action Tid)) :
    bodies i (loop.events ((s, .next i) :: tr)) =
      bodies i (loop.events tr) +
        if (loop.loaded (s.pc i)).isSome then 1 else 0 := by
  rw [Loop.events_cons, Loop.event]
  cases hloaded : loop.loaded (s.pc i) with
  | some loaded =>
      simp only
      split <;> simp [bodies_cons]
  | none =>
      simp only
      split <;> simp [bodies_cons]

theorem bodies_other (loop : Loop) (s : State Tid) {i : Tid} {a : Action Tid}
    (ha : a.actor ≠ i) (tr : History (State Tid) (Action Tid)) :
    bodies i (loop.events ((s, a) :: tr)) = bodies i (loop.events tr) := by
  rw [Loop.events_cons]
  cases hevent : loop.event s a with
  | none => rfl
  | some e =>
      exact bodies_of_actor_ne (by rwa [Loop.event_actor hevent]) _

theorem stage_next {s s' : State Tid} {i : Tid}
    (h : StepCases s (.next i) s') :
    (s'.pc i).stage +
        2 * (if (Loop.min.loaded (s.pc i)).isSome then 1 else 0) +
        2 * (if (Loop.max.loaded (s.pc i)).isSome then 1 else 0) =
      (s.pc i).stage + 1 := by
  cases h with
  | addVal _ val before | addCount _ val before | loadMin _ val before _
  | leaveMin _ val before _ | exchangeMin _ val _ before
  | retryMin _ val _ _ before _ | loadMax _ val before _
  | leaveMax _ val before _ | exchangeMax _ val _ before
  | retryMax _ val _ _ before _ | addBucket _ val before =>
      simp [State.goto, before, Loop.loaded, Pc.stage]

theorem progress_next {s s' : State Tid} {i : Tid}
    (h : StepCases s (.next i) s') (tr : History (State Tid) (Action Tid)) :
    progress i ((s, .next i) :: tr) (s'.pc i) = progress i tr (s.pc i) + 1 := by
  have hstage := stage_next h
  rw [progress, progress, bodies_next, bodies_next]
  omega

def budget (n : ℕ) : ℕ := 4 * n + 6

theorem budget_mono {m n : ℕ} (h : m ≤ n) : budget m ≤ budget n := by
  simp only [budget]
  omega

def spent (n : ℕ) (i : Tid) (tr : History (State Tid) (Action Tid)) (pc : Pc) :
    ℕ :=
  if pc = .idle then budget n else progress i tr pc

/-- The calls of thread `i` have each used up to `budget n` steps. -/
def Paced (n : ℕ) (i : Tid) (tr : History (State Tid) (Action Tid))
    (s : State Tid) : Prop :=
  steps i tr + budget n ≤ budget n * calls i tr + spent n i tr (s.pc i)

theorem steps_own {i : Tid} {a : Action Tid} (ha : a.actor = i)
    (s : State Tid) (tr : History (State Tid) (Action Tid)) :
    steps i ((s, a) :: tr) = steps i tr + 1 := by
  simp [steps, ha]

theorem steps_other {i : Tid} {a : Action Tid} (ha : a.actor ≠ i)
    (s : State Tid) (tr : History (State Tid) (Action Tid)) :
    steps i ((s, a) :: tr) = steps i tr := by
  simp [steps, ha.symm]

theorem calls_update (i : Tid) (val : UInt32) (s : State Tid)
    (tr : History (State Tid) (Action Tid)) :
    calls i ((s, .update i val) :: tr) = calls i tr + 1 := by
  rw [calls, Loop.events_cons]
  exact List.count_cons_self

theorem calls_next (i j : Tid) (s : State Tid)
    (tr : History (State Tid) (Action Tid)) :
    calls i ((s, .next j) :: tr) = calls i tr := by
  rw [calls, Loop.events_cons, Loop.event]
  split
  · split <;> simp [calls]
  · split <;> simp [calls]

theorem calls_other {i : Tid} {a : Action Tid} (ha : a.actor ≠ i)
    (s : State Tid) (tr : History (State Tid) (Action Tid)) :
    calls i ((s, a) :: tr) = calls i tr := by
  cases a with
  | next j => exact calls_next i j s tr
  | update j val =>
      rw [calls, Loop.events_cons]
      exact List.count_cons_of_ne fun e => ha (by cases e; rfl)

theorem stage_le {pc : Pc} (h : pc ≠ .idle) : pc.stage ≤ 5 := by
  cases pc with
  | idle => exact absurd rfl h
  | _ => simp [Pc.stage]

private theorem Paced.call {n : ℕ} {i : Tid} {val : UInt32}
    {tr : History (State Tid) (Action Tid)} {s : State Tid}
    (h : Paced n i tr s) (before : s.pc i = .idle) :
    Paced n i ((s, .update i val) :: tr)
      (s.goto i (.addVal val) s.counter) := by
  have hfresh (loop : Loop) :
      bodies i (loop.events ((s, .update i val) :: tr)) = 0 := by
    rw [Loop.events_cons]
    exact bodies_begin i _
  have hprogress :
      progress i ((s, .update i val) :: tr) (.addVal val) = 1 := by
    rw [progress, hfresh, hfresh]
    rfl
  rw [Paced, before, spent, if_pos rfl] at h
  rw [Paced, steps_own (show (Action.update i val).actor = i from rfl),
    calls_update, Nat.mul_succ]
  simp only [spent, State.goto, Function.update_self, reduceCtorEq, if_false,
    hprogress]
  omega

private theorem Paced.next {n : ℕ} {i : Tid}
    {tr : History (State Tid) (Action Tid)} {s s' : State Tid}
    (h : Paced n i tr s) (hstep : StepCases s (.next i) s')
    (few : ∀ loop : Loop, bodies i (loop.events tr) ≤ n) :
    Paced n i ((s, .next i) :: tr) s' := by
  have hprogress := progress_next hstep tr
  have hmin := few .min
  have hmax := few .max
  have hstage := stage_le hstep.busy
  rw [Paced, spent, if_neg hstep.busy] at h
  rw [Paced, steps_own (show (Action.next i).actor = i from rfl), calls_next,
    spent]
  split
  · -- The call returns, and what it did not need is left over.
    rw [progress] at h
    simp only [budget] at h ⊢
    omega
  · omega

theorem Paced.step {n : ℕ} {i : Tid} {tr : History (State Tid) (Action Tid)}
    {s s' : State Tid} {a : Action Tid} (h : Paced n i tr s)
    (hstep : StepCases s a s')
    (few : ∀ loop : Loop, bodies i (loop.events tr) ≤ n) :
    Paced n i ((s, a) :: tr) s' := by
  by_cases hactor : a.actor = i
  · subst hactor
    cases a with
    | next i => exact h.next hstep few
    | update i val =>
        cases hstep with
        | call _ _ before => exact h.call before
  · rw [Paced, steps_other hactor, calls_other hactor, hstep.pc_other hactor,
      spent, progress, bodies_other _ _ hactor, bodies_other _ _ hactor]
    exact h

omit [DecidableEq Tid] in
theorem begun_past {tr past : History (State Tid) (Action Tid)}
    (h : past <:+ tr) : (begun past).length ≤ (begun tr).length :=
  (h.filterMap _).length_le

variable [Fintype Tid]

/-- No thread gets more steps out of its calls than they are worth. -/
theorem paced_exec {n : ℕ} {tr : History (State Tid) (Action Tid)}
    {s : State Tid} (run : (system Tid).Exec tr s)
    (few : (begun tr).length ≤ n) (i : Tid) : Paced n i tr s := by
  induction run with
  | start init =>
      obtain rfl := init
      simp [Paced, steps, calls, spent, initial, Loop.events, observed]
  | @next tr s s' a run step ih =>
      have hpast : (begun tr).length ≤ n :=
        (begun_past (List.suffix_cons _ tr)).trans few
      refine (ih hpast).step (step_cases step) fun loop => ?_
      exact ((loop.bounded run).bodies i _ (List.suffix_refl _)).trans hpast

theorem length_le {tr : History (State Tid) (Action Tid)} {s : State Tid}
    (run : (system Tid).Exec tr s) :
    tr.length ≤ budget (begun tr).length * (begun tr).length := by
  have hsteps (i : Tid) : steps i tr ≤ budget (begun tr).length * calls i tr := by
    have hpaced := paced_exec run le_rfl i
    have hbodies (loop : Loop) := (loop.bounded run).bodies i _ (List.suffix_refl _)
    have hmin := hbodies .min
    have hmax := hbodies .max
    rw [Paced, spent] at hpaced
    split at hpaced
    · omega
    · have hstage := stage_le ‹_›
      rw [progress] at hpaced
      simp only [budget] at hpaced ⊢
      omega
  calc tr.length = ∑ i, steps i tr :=
        (sum_countP_eq_length (fun p => p.2.actor) tr).symm
    _ ≤ ∑ i, budget (begun tr).length * calls i tr :=
        Finset.sum_le_sum fun i _ => hsteps i
    _ = budget (begun tr).length * ∑ i, calls i tr :=
        (Finset.mul_sum ..).symm
    _ = budget (begun tr).length * (begun tr).length := by
        rw [← Loop.countP_isBegin_events .min tr, countP_isBegin]
        rfl

omit [Fintype Tid] in
theorem begun_history_le (run : (system Tid).InfiniteRun) {m : ℕ}
    (finite : ∀ n i val, run.actions n = .update i val → n < m) (n : ℕ) :
    (begun (run.history n)).length ≤ m := by
  induction n with
  | zero => exact Nat.zero_le m
  | succ n ih =>
      cases haction : run.actions n with
      | update i val =>
          have hlt := finite n i val haction
          have hle : (begun (run.history (n + 1))).length ≤ n + 1 := by
            refine (List.length_filterMap_le ..).trans ?_
            rw [InfiniteRun.length_history]
          omega
      | next i =>
          rw [InfiniteRun.history, haction]
          exact ih

/--
`Update` terminates under every schedule.  In a run with so many calls each
loop is bounded as a contended loop is, and the run is no longer than the
calls are worth; and no run is infinite once no further call begins.
-/
theorem update_terminates (Tid : Type) [DecidableEq Tid] [Fintype Tid] :
    (∀ (tr : History (State Tid) (Action Tid)) s, (system Tid).Exec tr s →
      (∀ loop : Loop, LoopBounded (begun tr).length (loop.events tr)) ∧
        tr.length ≤ budget (begun tr).length * (begun tr).length) ∧
      ¬ ∃ (run : (system Tid).InfiniteRun) (m : ℕ),
        ∀ n i val, run.actions n = .update i val → n < m := by
  refine ⟨fun tr s run => ⟨fun loop => loop.bounded run, length_le run⟩, ?_⟩
  rintro ⟨run, m, finite⟩
  have hcalls := begun_history_le run finite (budget m * m + 1)
  have hlength := length_le (run.exec (budget m * m + 1))
  rw [InfiniteRun.length_history] at hlength
  have hworth : budget (begun (run.history (budget m * m + 1))).length *
      (begun (run.history (budget m * m + 1))).length ≤ budget m * m :=
    Nat.mul_le_mul (budget_mono hcalls) hcalls
  omega

theorem update_terminates_contended :
    ∃ tr s, (system (Fin 2)).Exec tr s ∧
      Loop.min.events tr = [.load 0, .success 0, .load 0, .failure 0,
        .load 1, .success 1, .load 1, .load 0, .begin 1, .begin 0] ∧
      ∀ loop : Loop, LoopBounded (begun tr).length (loop.events tr) := by
  obtain ⟨tr, s, run, htest⟩ : ∃ tr s, (system (Fin 2)).Exec tr s ∧
      decide (Loop.min.events tr = [.load 0, .success 0, .load 0, .failure 0,
        .load 1, .success 1, .load 1, .load 0, .begin 1, .begin 0]) = true :=
    Exec.ofRecord exec (initial (Fin 2))
      [.update 0 5, .update 1 7, .next 0, .next 1, .next 0, .next 1,
        .next 0, .next 1, .next 1, .next 1, .next 0, .next 0, .next 0, .next 0]
      (fun r => decide (Loop.min.events r.1 = [.load 0, .success 0, .load 0,
        .failure 0, .load 1, .success 1, .load 1, .load 0, .begin 1,
        .begin 0])) rfl (by decide)
  exact ⟨tr, s, run, of_decide_eq_true htest,
    ((update_terminates (Fin 2)).1 tr s run).1⟩

end Iocore.PerfCounter
