import Iocore.Queue.Linearizability
import Iocore.Queue.Solo

/-!
# A timed pop that gives up

A consumer whose timed wait is over first gets the lock back.  What happened
in the meantime is unknown to it: producers and other consumers had the lock.
After any other end of the wait `Pop(ms)` tests the queue again, as the loop
of the untimed `Pop` does; after a timeout it returns `NULL` at once.  So it
leaves an element behind exactly when the others have put in more than they
have taken out since it last looked into the queue and found it empty.
-/

namespace Iocore.Queue

open Foundation Foundation.System FifoOp Pthread

variable {S T Tid : Type}

def LeavesNothing (v : Variant S T) (s : State Tid S T) : Prop :=
  ∀ i ms, s.pc i = .popGiveUp ms → v.container.isEmpty s.container = true

def Pc.tests : Pc T → Bool
  | .popTest _ _ => true
  | _ => false

def Pc.missed : Pc T → Bool
  | .popWait _ | .popAsleep _ | .popExpired _ => true
  | _ => false

section History

variable [DecidableEq Tid] (v : Variant S T)

/-- What was pushed and popped since thread `i` last looked into the queue. -/
def sinceTest (i : Tid) : History (State Tid S T) (Action Tid T) →
    List (FifoOp T)
  | [] => []
  | (s, .next j) :: tr =>
      if j = i ∧ (s.pc i).tests = true then []
      else (operation v s (.next j)).toList ++ sinceTest i tr
  | _ :: tr => sinceTest i tr

/--
Whenever a thread whose wait has timed out gets the lock back, the others have
popped as many elements as they have pushed since it looked into the queue.
-/
def EvenOnReturn : History (State Tid S T) (Action Tid T) → Prop
  | [] => True
  | (s, a) :: tr =>
      (∀ i ms, a = .next i → s.pc i = .popExpired ms →
        (pushes (sinceTest v i tr)).length =
          (pops (sinceTest v i tr)).length) ∧ EvenOnReturn tr

/-- Nobody pushes before a thread whose wait has timed out has the lock back. -/
def UnpushedOnReturn : History (State Tid S T) (Action Tid T) → Prop
  | [] => True
  | (s, a) :: tr =>
      (∀ i ms, a = .next i → s.pc i = .popExpired ms →
        pushes (sinceTest v i tr) = []) ∧ UnpushedOnReturn tr

end History

/-! ## How a thread comes to give up -/

theorem entry_popGiveUp {v : Variant S T} {c : Call T} {ms : UInt32}
    (h : c.entry v = some (.popGiveUp ms)) : False := by
  have hholding := entry_holding h
  cases hholding

variable [DecidableEq Tid] {v : Variant S T} {s s' : State Tid S T}
  {a : Action Tid T}

theorem StepCases.popExpired_stays (h : StepCases v s s' a) {i : Tid}
    {ms : UInt32} (hpc : s.pc i = .popExpired ms) (label : a ≠ .next i) :
    s'.pc i = .popExpired ms := by
  have hother {j : Tid} {pc : Pc T} (hne : i ≠ j)
      (pcs : s'.pc = Function.update s.pc j pc) : s'.pc i = .popExpired ms := by
    rw [pcs, Function.update_of_ne hne, hpc]
  have hnext {j : Tid} (hlabel : (.next j : Action Tid T) ≠ .next i) : i ≠ j :=
    fun e => hlabel (e ▸ rfl)
  have hcode {j : Tid} {instr : Instr T} (code : code v.maxSpin (s.pc j) = instr)
      (hinstr : ∀ next, instr ≠ .lock next) : i ≠ j := by
    rintro rfl
    rw [hpc] at code
    exact hinstr _ code.symm
  cases h with
  | call j c result pc before entry lock container pcs =>
      refine hother ?_ pcs
      rintro rfl
      rw [hpc] at before
      cases before
  | acquire j next code free lock container pcs => exact hother (hnext label) pcs
  | release j next code lock container pcs => exact hother (hnext label) pcs
  | push j t next code pushed lock pcs => exact hother (hnext label) pcs
  | pop j t empty popped code nonempty taken lock pcs =>
      exact hother (hnext label) pcs
  | miss j empty popped code isEmpty lock container pcs =>
      exact hother (hnext label) pcs
  | test j next code lock container pcs => exact hother (hnext label) pcs
  | yield j next code lock container pcs => exact hother (hnext label) pcs
  | expireLock j ms next expired code lock container pcs =>
      exact hother (hcode code nofun) pcs
  | expireWait j woken expired unwinding code lock container pcs =>
      exact hother (hcode code nofun) pcs
  | wake j asleep lock container pcs =>
      obtain ⟨expired, code⟩ := asleep_code v.maxSpin asleep
      exact hother (hcode code nofun) pcs
  | signal j woken next code wakes lock container pcs =>
      rw [pcs, Function.update_of_ne (hcode code nofun), wakeAll, hpc]
      exact ite_self _
  | cancel j lock container pcs => rw [pcs, hpc]
  | cancelAct j asleep pending lock container pcs =>
      obtain ⟨expired, code⟩ := asleep_code v.maxSpin asleep
      exact hother (hcode code nofun) pcs

theorem StepCases.gives_up (h : StepCases v s s' a) {i : Tid} {ms : UInt32}
    (hpc : s'.pc i = .popGiveUp ms) :
    s.pc i = .popGiveUp ms ∨ a = .next i ∧ s.pc i = .popExpired ms := by
  rcases (h.flow i).leads with stays | ⟨c, result, -, enters⟩ | leads |
    ⟨-, -, leaves⟩
  · exact .inl (stays ▸ hpc)
  · exact (entry_popGiveUp (hpc ▸ enters)).elim
  · have hexpired := leads_before (hpc ▸ leads) rfl
    by_cases label : a = .next i
    · exact .inr ⟨label, hexpired⟩
    · rw [h.popExpired_stays hexpired label] at hpc
      cases hpc
  · rw [leaves] at hpc
    cases hpc

/-! ## From the test to the end of the wait -/

theorem leads_missed {maxSpin : Nat} {pc next : Pc T}
    (plain : (code maxSpin pc).plain = true)
    (leads : (code maxSpin pc).Leads next) (hmissed : next.missed = true) :
    pc.missed = true := by
  cases leads_cases leads with
  | wait | waitExpired => rfl
  | miss => cases plain
  | _ => cases hmissed

theorem tests_of_missed {pc : Pc T} (h : pc.missed = true) :
    pc.tests = false := by
  cases pc <;> first | rfl | cases h

omit [DecidableEq Tid] in
theorem Flow.missed {i : Tid} (flow : Flow v s s' a i)
    (hmissed : (s'.pc i).missed = true) :
    (a = .next i ∧ (s.pc i).tests = true ∧
        v.container.isEmpty s.container = true ∧ operation v s a = none) ∨
      (s.pc i).missed = true := by
  cases flow with
  | same label noCall stays => exact .inr (stays ▸ hmissed)
  | entry c result label before enters =>
      cases hpc : s'.pc i with
      | popWait | popAsleep | popExpired =>
          rw [hpc] at enters
          cases entry_entered enters
      | _ => rw [hpc] at hmissed; cases hmissed
  | plain label plain leads => exact .inr (leads_missed plain leads hmissed)
  | aside label noCall empty plain leads =>
      exact .inr (leads_missed plain leads hmissed)
  | pop t label empty popped code nonempty taken goes =>
      rcases code_pop code with ⟨kind, k, -, -, rfl⟩ |
        ⟨kind, again, -, -, rfl⟩ <;> rw [goes] at hmissed <;> cases hmissed
  | miss label empty popped code isEmpty goes =>
      have hoperation : operation v s a = none := by
        simp [label, operation, code, isEmpty]
      rcases code_pop code with ⟨kind, k, -, rfl, -⟩ |
        ⟨kind, again, hpc, rfl, -⟩
      · rw [goes] at hmissed
        cases hmissed
      · exact .inl ⟨label, by rw [hpc]; rfl, isEmpty, hoperation⟩
  | test label next code goes =>
      obtain ⟨-, rfl⟩ := code_isEmpty code
      rw [goes] at hmissed
      cases hmissed
  | unwind label asleep leaves =>
      rw [leaves] at hmissed
      cases hmissed

theorem sinceTest_tested {tr : History (State Tid S T) (Action Tid T)} {i : Tid}
    (tests : (s.pc i).tests = true) :
    sinceTest v i ((s, .next i) :: tr) = [] :=
  if_pos ⟨rfl, tests⟩

theorem sinceTest_cons {tr : History (State Tid S T) (Action Tid T)} {i : Tid}
    (untested : (s.pc i).tests = false) :
    sinceTest v i ((s, a) :: tr) =
      (operation v s a).toList ++ sinceTest v i tr := by
  cases a with
  | next j => exact if_neg fun h => by rw [untested] at h; cases h.2
  | _ => rfl

theorem StepCases.container_eq_of_none (h : StepCases v s s' a)
    (quiet : operation v s a = none) : s'.container = s.container := by
  cases h.operates with
  | none operation container => exact container
  | push i t label at_ operation pushed =>
      rw [quiet] at operation
      cases operation
  | pop i t label holding operation nonempty popped =>
      rw [quiet] at operation
      cases operation

variable [Fintype Tid] (build : Build)

section Order

variable {Fits : S → T → Prop} {Content : S → List T → Prop}

/-- From an empty queue on, what is in it was pushed and not popped since. -/
theorem content_sinceTest (lawful : v.container.Lawful Fits Content)
    {tr : History (State Tid S T) (Action Tid T)}
    (run : (system build v Tid).Exec tr s)
    (contract : Meets (PushContract Fits) tr) {i : Tid}
    (hmissed : (s.pc i).missed = true) :
    ∃ xs, Content s.container xs ∧
      pushes (sinceTest v i tr) = pops (sinceTest v i tr) ++ xs := by
  induction run with
  | start init =>
      obtain rfl := init
      cases hmissed
  | @next tr s s' a run step ih =>
      obtain ⟨hcontract, hrest⟩ := meets_cons.mp contract
      have hlocked := (locked_inductive build).exec run
      have hcases := step_cases build hlocked step
      rcases (hcases.flow i).missed hmissed with
        ⟨rfl, tests, hempty, hquiet⟩ | hbefore
      · obtain ⟨xs, hcontent, -⟩ := operations_balance build lawful run hrest
        have hnil : xs = [] := by
          rw [lawful.isEmpty hcontent] at hempty
          exact List.isEmpty_iff.mp hempty
        refine ⟨[], ?_, by rw [sinceTest_tested tests]; rfl⟩
        rw [hcases.container_eq_of_none hquiet, ← hnil]
        exact hcontent
      · obtain ⟨xs, hcontent, hbalance⟩ := ih hrest hbefore
        have hstep := (fifo_simulation build lawful).step
          (run.restrict hrest).reachable hcontent ⟨hcontract, step⟩
        rw [sinceTest_cons (tests_of_missed hbefore)]
        cases hoperation : operation v s a with
        | none =>
            rw [hoperation] at hstep
            exact ⟨xs, hstep, hbalance⟩
        | some op =>
            rw [hoperation] at hstep
            obtain ⟨xs', hop, hcontent'⟩ := hstep
            refine ⟨xs', hcontent', ?_⟩
            cases op with
            | push t =>
                obtain rfl : xs' = xs ++ [t] := hop
                simp [hbalance]
            | pop t =>
                obtain rfl : xs = t :: xs' := hop
                simp [hbalance]

end Order

theorem isEmpty_of_unpushed {tr : History (State Tid S T) (Action Tid T)}
    (run : (system build v Tid).Exec tr s) {i : Tid}
    (hmissed : (s.pc i).missed = true)
    (unpushed : pushes (sinceTest v i tr) = []) :
    v.container.isEmpty s.container = true := by
  induction run with
  | start init =>
      obtain rfl := init
      cases hmissed
  | @next tr s s' a run step ih =>
      have hcases := step_cases build ((locked_inductive build).exec run) step
      rcases (hcases.flow i).missed hmissed with ⟨-, -, hempty, hquiet⟩ | hbefore
      · rwa [hcases.container_eq_of_none hquiet]
      · rw [sinceTest_cons (tests_of_missed hbefore)] at unpushed
        cases hcases.operates with
        | none operation container =>
            rw [operation] at unpushed
            rw [container]
            exact ih hbefore unpushed
        | push j t label at_ operation pushed =>
            rw [operation] at unpushed
            simp at unpushed
        | pop j t label holding operation nonempty popped =>
            -- Nothing can be popped from a queue into which nothing was put.
            rw [operation] at unpushed
            rw [ih hbefore (by simpa using unpushed)] at nonempty
            cases nonempty

/-! ## What is left behind -/

def ReturnsToEmpty (v : Variant S T) (s : State Tid S T) (a : Action Tid T) :
    Prop :=
  ∀ i ms, a = .next i → s.pc i = .popExpired ms →
    v.container.isEmpty s.container = true

variable (v)

structure Patient (s : State Tid S T) : Prop where
  locked : Locked s
  leavesNothing : LeavesNothing v s

theorem patient_inductive :
    ((system build v Tid).restrict (ReturnsToEmpty v)).Inductive (Patient v) where
  init := by
    rintro s rfl
    exact ⟨(locked_inductive build).init rfl, fun i ms hpc => by cases hpc⟩
  step := by
    rintro s a s' h ⟨hreturns, hstep⟩
    have hcases := step_cases build h.locked hstep
    refine ⟨hcases.locked h.locked, fun i ms hpc => ?_⟩
    -- At the end of the wait nobody else has the lock, so nothing changes.
    have hkept : s'.container = s.container := by
      rcases hcases.gives_up hpc with hstays | ⟨rfl, hexpired⟩
      · rcases hcases.container_cases with hkept | ⟨j, rfl, hholding, hcode⟩
        · exact hkept
        obtain rfl : j = i :=
          h.locked.atMostOne j i hholding (by rw [hstays]; rfl)
        rw [hstays] at hcode
        exact absurd rfl (hcode _)
      · exact hcases.container_eq_of_free (by rw [hexpired]; rfl)
    rw [hkept]
    rcases hcases.gives_up hpc with hstays | ⟨hlabel, hexpired⟩
    · exact h.leavesNothing i ms hstays
    · exact hreturns i ms hlabel hexpired

theorem leavesNothing_iff_returns {tr : History (State Tid S T) (Action Tid T)}
    {s : State Tid S T} (run : (system build v Tid).Exec tr s) :
    (∀ y ∈ visited tr s, LeavesNothing v y) ↔ Meets (ReturnsToEmpty v) tr := by
  refine Exec.safe_iff_meets (patient_inductive v build)
    (fun h => h.leavesNothing) ?_ run
  intro s a s' h hstep hbad hleaves
  simp only [ReturnsToEmpty, not_forall] at hbad
  obtain ⟨i, ms, rfl, hexpired, hfull⟩ := hbad
  have hcases := step_cases build h.locked hstep
  have hcode : code v.maxSpin (s.pc i) = .lock (.popGiveUp ms) := by
    rw [hexpired]
    rfl
  have hkept : s'.container = s.container :=
    hcases.container_eq_of_free (by rw [hexpired]; rfl)
  have hgives : s'.pc i = .popGiveUp ms := by
    have leads := (hcases.flow i).leads_of_next
    rw [hcode] at leads
    exact leads
  exact hfull (hkept ▸ hleaves i ms hgives)

theorem returns_iff_even {Fits : S → T → Prop} {Content : S → List T → Prop}
    (lawful : v.container.Lawful Fits Content)
    {tr : History (State Tid S T) (Action Tid T)}
    (run : (system build v Tid).Exec tr s)
    (contract : Meets (PushContract Fits) tr) :
    Meets (ReturnsToEmpty v) tr ↔ EvenOnReturn v tr := by
  induction run with
  | start init => exact iff_of_true (meets_nil _) trivial
  | @next tr s s' a run step ih =>
      obtain ⟨-, hrest⟩ := meets_cons.mp contract
      rw [meets_cons, ih hrest, EvenOnReturn]
      refine and_congr_left' (forall₄_congr fun i ms _ hexpired => ?_)
      obtain ⟨xs, hcontent, hbalance⟩ := content_sinceTest build lawful run
        hrest (i := i) (by rw [hexpired]; rfl)
      rw [lawful.isEmpty hcontent, hbalance, List.length_append,
        List.isEmpty_iff, ← List.length_eq_zero_iff]
      omega

theorem returns_of_unpushed {tr : History (State Tid S T) (Action Tid T)}
    (run : (system build v Tid).Exec tr s) (unpushed : UnpushedOnReturn v tr) :
    Meets (ReturnsToEmpty v) tr := by
  induction run with
  | start init => exact meets_nil _
  | @next tr s s' a run step ih =>
      refine meets_cons.mpr ⟨fun i ms hlabel hexpired => ?_, ih unpushed.2⟩
      exact isEmpty_of_unpushed build run (by rw [hexpired]; rfl)
        (unpushed.1 i ms hlabel hexpired)

/--
No timed `Pop` ever gives up with the lock held and an element in the queue,
precisely when every consumer that timed out got the lock back after as many
pops as pushes since it looked into the queue.  Where elements were pushed that
the queue held, the list no longer counts them, but nothing is left behind if
nobody pushed in between.
-/
theorem timedPop_leavesNothing_iff [DecidableEq T]
    {tr : History (State Tid (Heap T × InList T) T) (Action Tid T)}
    {s : State Tid (Heap T × InList T) T}
    (run : (system build (inQueue build T) Tid).Exec tr s) :
    (Meets (PushContract Unlinked) tr →
      ((∀ y ∈ visited tr s, LeavesNothing (inQueue build T) y) ↔
        EvenOnReturn (inQueue build T) tr)) ∧
    (UnpushedOnReturn (inQueue build T) tr →
      ∀ y ∈ visited tr s, LeavesNothing (inQueue build T) y) := by
  have hreturns := leavesNothing_iff_returns (inQueue build T) build run
  refine ⟨fun contract => ?_, fun unpushed => ?_⟩
  · exact hreturns.trans (returns_iff_even _ build (inList_lawful build) run
      contract)
  · exact hreturns.mpr (returns_of_unpushed _ build run unpushed)

/-! ## Runs of an `InQueue` -/

def waiting (consumer : Fin 2) :
    State (Fin 2) (Heap (Fin 1) × InList (Fin 1)) (Fin 1) :=
  (initial defaultBuild (inQueue defaultBuild (Fin 1)) (Fin 2)).goto consumer
    (.popAsleep (.timed 1))

theorem waiting_reachable (consumer : Fin 2) :
    (system defaultBuild (inQueue defaultBuild (Fin 1)) (Fin 2)).Reachable
      (waiting consumer) :=
  timedPop_falls_asleep defaultBuild rfl rfl rfl (by decide) rfl (.start rfl)

theorem timedPop_not_leavesNothing :
    ¬ ∀ s, (system defaultBuild (inQueue defaultBuild (Fin 1))
        (Fin 2)).Reachable s →
      LeavesNothing (inQueue defaultBuild (Fin 1)) s := by
  intro h
  obtain ⟨tr, s, run, htest⟩ : ∃ tr s, System.Exec ⟨(· = waiting 0),
      (system defaultBuild (inQueue defaultBuild (Fin 1)) (Fin 2)).step⟩ tr s ∧
        decide (s.pc 0 = .popGiveUp 1 ∧ s.container.2.isEmpty = false) = true :=
    Exec.ofRecord (exec defaultBuild (inQueue defaultBuild (Fin 1))) (waiting 0)
      [.expire 0, .call 1 (.push 0), .next 1, .next 1, .next 1, .next 0]
      (fun r => decide (r.2.pc 0 = .popGiveUp 1 ∧
        r.2.container.2.isEmpty = false)) rfl (by decide)
  obtain ⟨hgives, hfull⟩ := of_decide_eq_true htest
  have hempty := h s ((waiting_reachable 0).trans run.reachable) 0 1 hgives
  have hlist : s.container.2.isEmpty = true := hempty
  rw [hlist] at hfull
  cases hfull

theorem timedPop_leavesNothing_iff_alone :
    ∃ tr s, (system defaultBuild (inQueue defaultBuild (Fin 1))
        (Fin 2)).Exec tr s ∧
      (s.pc 0 = .popGiveUp 1 ∧ s.pc 1 = .idle (.popped .untimed (some 0)) ∧
        s.container.2.isEmpty = true) ∧
      (Meets (PushContract Unlinked) tr →
        ((∀ y ∈ visited tr s,
            LeavesNothing (inQueue defaultBuild (Fin 1)) y) ↔
          EvenOnReturn (inQueue defaultBuild (Fin 1)) tr)) ∧
      (UnpushedOnReturn (inQueue defaultBuild (Fin 1)) tr →
        ∀ y ∈ visited tr s,
          LeavesNothing (inQueue defaultBuild (Fin 1)) y) := by
  obtain ⟨tr, s, run, htest⟩ : ∃ tr s, System.Exec ⟨(· = waiting 0),
      (system defaultBuild (inQueue defaultBuild (Fin 1)) (Fin 2)).step⟩ tr s ∧
        decide (s.pc 0 = .popGiveUp 1 ∧
          s.pc 1 = .idle (.popped .untimed (some 0)) ∧
          s.container.2.isEmpty = true) = true :=
    Exec.ofRecord (exec defaultBuild (inQueue defaultBuild (Fin 1))) (waiting 0)
      [.expire 0, .call 1 (.push 0), .next 1, .next 1, .next 1, .signal 1 [],
        .call 1 (.pop .untimed), .next 1, .next 1, .next 1, .next 0]
      (fun r => decide (r.2.pc 0 = .popGiveUp 1 ∧
        r.2.pc 1 = .idle (.popped .untimed (some 0)) ∧
        r.2.container.2.isEmpty = true)) rfl (by decide)
  obtain ⟨tr', run'⟩ := (waiting_reachable 0).trans run.reachable
  exact ⟨tr', s, run', of_decide_eq_true htest,
    timedPop_leavesNothing_iff defaultBuild run'⟩

end Iocore.Queue
