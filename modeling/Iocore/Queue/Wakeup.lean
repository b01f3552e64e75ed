import Iocore.Queue.Linearizability
import Iocore.Queue.Solo

/-!
# No wake-up is lost

`Push` signals after it has released the lock, so an element can be in the
container while the signal for it is still to come, or while a consumer that
was woken for it has not come back.  As long as a consumer sleeps, these two
kinds of threads together are at least as many as the elements.  A consumer
goes to sleep only after it has found the container empty under the lock, and
every later step keeps the balance, whichever consumer takes the element.
-/

namespace Iocore.Queue

open Foundation Foundation.System Pthread

variable {S T Tid : Type}

/-- Has inserted an element and not yet signalled. -/
def Pc.signalling : Pc T → Bool
  | .pushUnlock | .pushSignal => true
  | _ => false

def Pc.returning : Pc T → Bool
  | .popWoken _ | .popTest _ true => true
  | _ => false

def Pc.tally (pc : Pc T) : Nat := pc.signalling.toNat + pc.returning.toNat

theorem entry_tally {v : Variant S T} {c : Call T} {pc : Pc T}
    (h : c.entry v = some pc) : pc.tally = 0 ∧ pc.asleep = false := by
  cases entry_entered h <;> exact ⟨rfl, rfl⟩

def TallyTyped (pc : Pc T) : Instr T → Prop
  | .lock next | .unlock next | .yield next =>
      next.tally = pc.tally ∧ next.asleep = false
  | .lockFor _ next expired =>
      next.tally = pc.tally ∧ next.asleep = false ∧
        expired.tally = pc.tally ∧ expired.asleep = false
  | .wait next => next.tally = pc.tally
  | .push _ next => next.tally = pc.tally + 1 ∧ next.asleep = false
  | .pop empty popped =>
      pc.tally ≤ 1 ∧ empty.asleep = false ∧ ∀ t, (popped t).asleep = false
  | .isEmpty next => pc.tally = 0 ∧ ∀ b, (next b).asleep = false
  | .sleep woken expired unwinding =>
      pc.tally = 0 ∧ woken.tally = 1 ∧ unwinding.tally = 0 ∧
        ∀ next, expired = some next → next.tally = 0 ∧ next.asleep = false
  | .signal next => pc.tally = 1 ∧ next.asleep = false
  | .none => True

theorem TallyTyped.of_code {maxSpin : Nat} {pc : Pc T} {instr : Instr T}
    (h : code maxSpin pc = instr) : TallyTyped pc instr := by
  subst h
  cases pc with
  | spinYield kind i =>
      change (spinFrom maxSpin kind (i + 1)).tally = _ ∧
        (spinFrom maxSpin kind (i + 1)).asleep = _
      unfold spinFrom
      split <;> exact ⟨rfl, rfl⟩
  | popLock kind | popAsleep kind =>
      cases kind <;>
        simp [code, TallyTyped, Pc.tally, Pc.signalling, Pc.returning, Pc.asleep]
  | popTest kind again =>
      cases again <;>
        simp [code, TallyTyped, Pc.tally, Pc.signalling, Pc.returning, Pc.asleep]
  | _ =>
      simp [code, TallyTyped, Pc.tally, Pc.signalling, Pc.returning, Pc.asleep]

theorem wake_tally {pc : Pc T} (h : pc.asleep = true) :
    pc.tally = 0 ∧ pc.wake.tally = 1 ∧ pc.wake.asleep = false := by
  cases pc <;> first | exact ⟨rfl, rfl, rfl⟩ | cases h

theorem leads_popWait {maxSpin : Nat} {pc : Pc T} {kind : PopKind}
    (plain : (code maxSpin pc).plain = true)
    (h : (code maxSpin pc).Leads (.popWait kind)) : False := by
  cases leads_cases h
  cases plain

theorem tally_le_wake (pc : Pc T) : pc.tally ≤ pc.wake.tally := by
  cases pc <;> first | exact le_refl _ | exact Nat.zero_le _

theorem code_wait {maxSpin : Nat} {pc next : Pc T}
    (h : code maxSpin pc = .wait next) : ∃ kind, pc = .popWait kind := by
  cases pc with
  | popWait kind => exact ⟨kind, rfl⟩
  | popLock kind | popAsleep kind => cases kind <;> cases h
  | _ => cases h

/-! ## The balance -/

variable [DecidableEq Tid]

theorem tally_le_wakeAll (pc : Tid → Pc T) (woken : List Tid) (j : Tid) :
    (pc j).tally ≤ (wakeAll pc woken j).tally := by
  unfold wakeAll
  split
  · exact tally_le_wake (pc j)
  · exact le_refl _

theorem asleep_of_wakeAll {pc : Tid → Pc T} {woken : List Tid} {j : Tid}
    (h : (wakeAll pc woken j).asleep = true) :
    (pc j).asleep = true ∧ j ∉ woken := by
  unfold wakeAll at h
  split at h
  · cases hpc : pc j <;> rw [hpc] at h <;> cases h
  · rename_i hmissed
    exact ⟨h, hmissed⟩

theorem StepCases.waits {v : Variant S T} {s s' : State Tid S T}
    {a : Action Tid T} (hlocked : Locked s) (h : StepCases v s s' a)
    (hwaits : ∀ i kind, s.pc i = .popWait kind →
      v.container.isEmpty s.container = true) :
    ∀ i kind, s'.pc i = .popWait kind →
      v.container.isEmpty s'.container = true := by
  intro j kind hpc
  cases h.flow j with
  | same label noCall stays =>
      -- The container belongs to the thread that holds the lock.
      rw [stays] at hpc
      rw [h.container_eq hlocked (by rw [hpc]; rfl) label]
      exact hwaits j kind hpc
  | entry c result label before enters =>
      rw [hpc] at enters
      cases entry_entered enters
  | plain label plain leads => exact (leads_popWait plain (hpc ▸ leads)).elim
  | aside label noCall empty plain leads =>
      exact (leads_popWait plain (hpc ▸ leads)).elim
  | pop t label empty popped code nonempty taken goes =>
      rcases code_pop code with ⟨kind', i, -, -, rfl⟩ |
        ⟨kind', again, -, -, rfl⟩ <;> cases goes.symm.trans hpc
  | miss label empty popped code isEmpty goes =>
      have hcontainer : s'.container = s.container := by
        cases h.operates with
        | none operation container => exact container
        | push i t label' at_ operation pushed =>
            cases label.symm.trans label'
            rw [at_] at code
            cases code
        | pop i t label' holding operation nonempty taken =>
            simp [isEmpty] at nonempty
      rw [hcontainer, isEmpty]
  | test label next code goes =>
      obtain ⟨-, rfl⟩ := code_isEmpty code
      cases goes.symm.trans hpc
  | unwind label asleep leaves => cases leaves.symm.trans hpc

private theorem balance_update [Fintype Tid] {f : Tid → Pc T} {i : Tid}
    {pc : Pc T} {n n' : Nat}
    (h : (∃ j, (f j).asleep = true) → n ≤ total Pc.tally f)
    (asleep : pc.asleep = true → n' = 0)
    (tally : n' + (f i).tally ≤ n + pc.tally) :
    (∃ j, (Function.update f i pc j).asleep = true) →
      n' ≤ total Pc.tally (Function.update f i pc) := by
  have htotal := total_update Pc.tally f i pc
  rintro ⟨j, hj⟩
  by_cases hji : j = i
  · subst hji
    rw [Function.update_self] at hj
    have := asleep hj
    omega
  · rw [Function.update_of_ne hji] at hj
    have := h ⟨j, hj⟩
    omega

structure Balanced [Fintype Tid] (v : Variant S T) (Content : S → List T → Prop)
    (s : State Tid S T) : Prop where
  locked : Locked s
  waits : ∀ i kind, s.pc i = .popWait kind →
    v.container.isEmpty s.container = true
  enough : ∃ xs, Content s.container xs ∧
    ((∃ j, (s.pc j).asleep = true) → xs.length ≤ total Pc.tally s.pc)

section Balance

variable [Fintype Tid] (build : Build) {v : Variant S T} {Fits : S → T → Prop}
  {Content : S → List T → Prop} {s s' : State Tid S T}

private theorem StepCases.enough (lawful : v.container.Lawful Fits Content)
    (h : Balanced v Content s) {a : Action Tid T}
    (contract : PushContract Fits s a) (cases : StepCases v s s' a) :
    ∃ xs, Content s'.container xs ∧
      ((∃ j, (s'.pc j).asleep = true) → xs.length ≤ total Pc.tally s'.pc) := by
  obtain ⟨xs, hcontent, henough⟩ := h.enough
  -- A step of one thread that leaves the container alone.
  have hmove : ∀ {i pc}, s'.container = s.container →
      s'.pc = Function.update s.pc i pc →
      (pc.asleep = true → xs.length = 0) → (s.pc i).tally ≤ pc.tally →
      ∃ xs, Content s'.container xs ∧
        ((∃ j, (s'.pc j).asleep = true) → xs.length ≤ total Pc.tally s'.pc) := by
    intro i pc hcontainer hpcs hasleep htally
    refine ⟨xs, by rwa [hcontainer], ?_⟩
    rw [hpcs]
    exact balance_update henough hasleep (by omega)
  have hempty : v.container.isEmpty s.container = true → xs.length = 0 := by
    intro he
    rw [lawful.isEmpty hcontent, List.isEmpty_iff] at he
    rw [he]
    rfl
  cases cases with
  | call i c result pc before entry lock container pcs =>
      obtain ⟨htally, hasleep⟩ := entry_tally entry
      have hbefore : (s.pc i).tally = 0 := by
        rw [before]
        rfl
      exact hmove container pcs (by simp [hasleep]) (by omega)
  | acquire i next code free lock container pcs =>
      have htyped : next.tally = (s.pc i).tally ∧ next.asleep = false := by
        rcases code with code | ⟨ms, expired, code⟩
        · exact TallyTyped.of_code code
        · have htyped := TallyTyped.of_code code
          exact ⟨htyped.1, htyped.2.1⟩
      exact hmove container pcs (by simp [htyped.2]) (by omega)
  | release i next code lock container pcs =>
      rcases code with code | code
      · obtain ⟨htally, hasleep⟩ := TallyTyped.of_code code
        exact hmove container pcs (by simp [hasleep]) (by omega)
      · have htally := TallyTyped.of_code code
        refine hmove container pcs (fun _ => hempty ?_) (le_of_eq htally.symm)
        obtain ⟨kind, hpc⟩ := code_wait code
        exact h.waits i kind hpc
  | push i t next code pushed lock pcs =>
      obtain ⟨container, hpush, hafter⟩ :=
        lawful.push hcontent (contract i t rfl (code_push code))
      obtain rfl := Except.ok.inj (pushed.symm.trans hpush)
      obtain ⟨htally, hasleep⟩ := TallyTyped.of_code code
      refine ⟨xs ++ [t], hafter, ?_⟩
      rw [pcs]
      refine balance_update henough (by simp [hasleep]) ?_
      rw [List.length_append, List.length_singleton]
      omega
  | pop i t empty popped code nonempty taken lock pcs =>
      cases xs with
      | nil => simp [lawful.isEmpty hcontent] at nonempty
      | cons x xs =>
          obtain ⟨container, hpop, hafter⟩ := lawful.pop hcontent
          cases Except.ok.inj (taken.symm.trans hpop)
          obtain ⟨htally, -, hasleep⟩ := TallyTyped.of_code code
          refine ⟨xs, hafter, ?_⟩
          rw [pcs]
          refine balance_update henough (by simp [hasleep]) ?_
          rw [List.length_cons]
          omega
  | miss i empty popped code isEmpty lock container pcs =>
      obtain ⟨htally, hasleep, -⟩ := TallyTyped.of_code code
      have hnone := hempty isEmpty
      refine ⟨xs, by rwa [container], ?_⟩
      rw [pcs]
      rintro -
      omega
  | test i next code lock container pcs =>
      obtain ⟨htally, hasleep⟩ := TallyTyped.of_code code
      exact hmove container pcs (by simp [hasleep]) (by omega)
  | yield i next code lock container pcs =>
      obtain ⟨htally, hasleep⟩ := TallyTyped.of_code code
      exact hmove container pcs (by simp [hasleep]) (by omega)
  | expireLock i ms next expired code lock container pcs =>
      obtain ⟨-, -, htally, hasleep⟩ := TallyTyped.of_code code
      exact hmove container pcs (by simp [hasleep]) (by omega)
  | expireWait i woken expired unwinding code lock container pcs =>
      obtain ⟨htally, -, -, hexpired⟩ := TallyTyped.of_code code
      exact hmove container pcs (by simp [(hexpired _ rfl).2]) (by omega)
  | wake i asleep lock container pcs =>
      obtain ⟨htally, hwoken, hawake⟩ := wake_tally asleep
      exact hmove container pcs (by simp [hawake]) (by omega)
  | signal i woken next code wakes lock container pcs =>
      obtain ⟨htally, hawake⟩ := TallyTyped.of_code code
      refine ⟨xs, by rwa [container], ?_⟩
      rw [pcs]
      rintro ⟨j, hj⟩
      have hji : j ≠ i := by
        rintro rfl
        rw [Function.update_self, hawake] at hj
        cases hj
      rw [Function.update_of_ne hji] at hj
      obtain ⟨hasleep, hmissed⟩ := asleep_of_wakeAll hj
      obtain ⟨k, hk⟩ : ∃ k, k ∈ woken := by
        refine List.exists_mem_of_ne_nil woken fun hnil => ?_
        simp [wakes.2 hnil j] at hasleep
      have hbefore := henough ⟨j, hasleep⟩
      have hgain := total_lt (tally_le_wakeAll s.pc woken) k (by
        obtain ⟨hzero, hone, -⟩ := wake_tally (wakes.1 k hk)
        rw [wakeAll, if_pos hk]
        omega)
      have hmine : wakeAll s.pc woken i = s.pc i := if_neg fun hmem => by
        have := (wake_tally (wakes.1 i hmem)).1
        omega
      have htotal := total_update Pc.tally (wakeAll s.pc woken) i next
      rw [hmine] at htotal
      omega
  | cancel i lock container pcs =>
      exact ⟨xs, by rwa [container], by rwa [pcs]⟩
  | cancelAct i asleep pending lock container pcs =>
      obtain ⟨htally, -⟩ := wake_tally asleep
      exact hmove container pcs (fun h => by cases h) (by omega)

theorem balanced_inductive (lawful : v.container.Lawful Fits Content) :
    ((system build v Tid).restrict (PushContract Fits)).Inductive
      (Balanced v Content) where
  init := by
    rintro s rfl
    exact ⟨(locked_inductive build).init rfl, nofun, [], lawful.initial,
      fun ⟨_, hasleep⟩ => by cases hasleep⟩
  step := by
    rintro s a s' h ⟨contract, hstep⟩
    have hcases := step_cases build h.locked hstep
    exact ⟨hcases.locked h.locked, hcases.waits h.locked h.waits,
      hcases.enough lawful h contract⟩

/--
While a consumer sleeps, the elements are at most the producers that still
have to signal and the woken consumers that still have to look.
-/
structure NoLostWakeup (v : Variant S T) (Content : S → List T → Prop)
    (s : State Tid S T) : Prop where
  bound : ∃ xs, Content s.container xs ∧
    ((∃ j, (s.pc j).asleep = true) →
      xs.length ≤ count Pc.signalling s.pc + count Pc.returning s.pc)
  attended : v.container.isEmpty s.container = false →
    (∃ j, (s.pc j).asleep = true) →
    ∃ j, (s.pc j).signalling = true ∨ (s.pc j).returning = true

theorem noLostWakeup (lawful : v.container.Lawful Fits Content)
    {tr : History (State Tid S T) (Action Tid T)}
    (run : (system build v Tid).Exec tr s)
    (contract : Meets (PushContract Fits) tr) : NoLostWakeup v Content s := by
  obtain ⟨xs, hcontent, henough⟩ :=
    ((balanced_inductive build lawful).exec (run.restrict contract)).enough
  have htotal : total Pc.tally s.pc =
      count Pc.signalling s.pc + count Pc.returning s.pc := total_add ..
  rw [htotal] at henough
  refine ⟨⟨xs, hcontent, henough⟩, fun hnonempty hasleep => ?_⟩
  have hlength : 0 < xs.length := by
    rw [lawful.isEmpty hcontent] at hnonempty
    cases xs with
    | nil => cases hnonempty
    | cons x xs => exact Nat.succ_pos _
  have hbound := henough hasleep
  by_cases hsignal : 0 < count Pc.signalling s.pc
  · obtain ⟨j, hj⟩ := exists_of_count_pos hsignal
    exact ⟨j, .inl hj⟩
  · obtain ⟨j, hj⟩ := exists_of_count_pos (p := Pc.returning) (f := s.pc)
      (by omega)
    exact ⟨j, .inr hj⟩

/--
No wake-up is lost in any run of a `Queue`, and in any run of an `InQueue` in
which no element is pushed while the queue holds it.
-/
theorem queues_noLostWakeup [DecidableEq T] :
    (∀ {tr s}, (system build (queue T) Tid).Exec tr s →
      NoLostWakeup (queue T) (fun xs ys => xs = ys) s) ∧
    ∀ {tr s}, (system build (inQueue build T) Tid).Exec tr s →
      Meets (PushContract Unlinked) tr →
      NoLostWakeup (inQueue build T) Chain s := by
  constructor
  · intro tr s run
    exact noLostWakeup build stdQueue_lawful run fun _ _ _ _ _ _ => trivial
  · intro tr s run contract
    exact noLostWakeup build (inList_lawful build) run contract

end Balance

theorem untold_element_noLostWakeup :
    (∃ tr s, (system defaultBuild (queue (Fin 2)) (Fin 2)).Exec tr s ∧
      (s.pc 0 = .pushSignal ∧ s.pc 1 = .popAsleep .untimed ∧
        s.container = [1]) ∧
      NoLostWakeup (queue (Fin 2)) (fun xs ys => xs = ys) s) ∧
    ∃ tr s, (system ⟨true, false⟩ (inQueue ⟨true, false⟩ (Fin 2))
        (Fin 2)).Exec tr s ∧
      (s.pc 0 = .pushSignal ∧ s.pc 1 = .spinYield (.timed 5) 0 ∧
        s.container.2 = ⟨some 1, some 1⟩) ∧
      NoLostWakeup (inQueue ⟨true, false⟩ (Fin 2)) Chain s := by
  constructor
  · obtain ⟨tr, s, run, htest⟩ : ∃ tr s,
        (system defaultBuild (queue (Fin 2)) (Fin 2)).Exec tr s ∧
          decide (s.pc 0 = .pushSignal ∧ s.pc 1 = .popAsleep .untimed ∧
            s.container = [1]) = true :=
      Exec.ofRecord (exec defaultBuild (queue (Fin 2)))
        (initial defaultBuild (queue (Fin 2)) (Fin 2))
        [.call 1 (.pop .untimed), .next 1, .next 1, .next 1,
          .call 0 (.push 1), .next 0, .next 0, .next 0]
        (fun r => decide (r.2.pc 0 = .pushSignal ∧
          r.2.pc 1 = .popAsleep .untimed ∧ r.2.container = [1])) rfl
        (by decide)
    exact ⟨tr, s, run, of_decide_eq_true htest,
      (queues_noLostWakeup defaultBuild).1 run⟩
  · obtain ⟨tr, s, run, htest⟩ : ∃ tr s, (system ⟨true, false⟩
        (inQueue ⟨true, false⟩ (Fin 2)) (Fin 2)).Exec tr s ∧
          decide ((∀ p ∈ tr, ∀ i t, p.2 = .next i → p.1.pc i = .pushStore t →
              p.1.container.2.head = none) ∧ s.pc 0 = .pushSignal ∧
            s.pc 1 = .spinYield (.timed 5) 0 ∧
            s.container.2 = ⟨some 1, some 1⟩) = true :=
      Exec.ofRecord (exec ⟨true, false⟩ (inQueue ⟨true, false⟩ (Fin 2)))
        (initial ⟨true, false⟩ (inQueue ⟨true, false⟩ (Fin 2)) (Fin 2))
        [.call 1 (.pop (.timed 5)), .next 1, .next 1, .next 1,
          .call 0 (.push 1), .next 0, .next 0, .next 0]
        (fun r => decide ((∀ p ∈ r.1, ∀ i t, p.2 = .next i →
            p.1.pc i = .pushStore t → p.1.container.2.head = none) ∧
          r.2.pc 0 = .pushSignal ∧ r.2.pc 1 = .spinYield (.timed 5) 0 ∧
          r.2.container.2 = ⟨some 1, some 1⟩)) rfl (by decide)
    obtain ⟨hempty, hend⟩ := of_decide_eq_true htest
    refine ⟨tr, s, run, hend,
      (queues_noLostWakeup ⟨true, false⟩).2 run fun p hp i t hlabel hpc ys => ?_⟩
    rw [hempty p hp i t hlabel hpc]
    exact not_path_none

/-! ## An element pushed twice -/

/--
An empty `InQueue` after element 0 was pushed a second time behind element 1:
the queue has lost element 1, which still has its links.
-/
def stale : State (Fin 3) (Heap (Fin 3) × InList (Fin 3)) (Fin 3) where
  lock := ⟨.recursive, .free⟩
  container :=
    (⟨fun t => if t = 1 then some 0 else none,
      fun t => if t = 1 then some 0 else none⟩, ⟨none, none⟩)
  pc i := .idle (if i = 0 then .popped .untimed (some 2) else .noCall)
  pending _ := false

theorem stale_reachable :
    (system defaultBuild (inQueue defaultBuild (Fin 3)) (Fin 3)).Reachable
      stale := by
  obtain ⟨tr, s, run, htest⟩ : ∃ tr s, (system defaultBuild
      (inQueue defaultBuild (Fin 3)) (Fin 3)).Exec tr s ∧
        decide (s.lock = stale.lock ∧
          s.container.1.next = stale.container.1.next ∧
          s.container.1.prev = stale.container.1.prev ∧
          s.container.2 = stale.container.2 ∧ s.pc = stale.pc ∧
          s.pending = stale.pending) = true :=
    Exec.ofRecord (exec defaultBuild (inQueue defaultBuild (Fin 3)))
      (initial defaultBuild (inQueue defaultBuild (Fin 3)) (Fin 3))
      [.call 0 (.push 0), .next 0, .next 0, .next 0, .signal 0 [],
        .call 0 (.push 1), .next 0, .next 0, .next 0, .signal 0 [],
        .call 0 (.push 0), .next 0, .next 0, .next 0, .signal 0 [],
        .call 0 (.push 2), .next 0, .next 0, .next 0, .signal 0 [],
        .call 0 (.pop .untimed), .next 0, .next 0, .next 0,
        .call 0 (.pop .untimed), .next 0, .next 0, .next 0]
      (fun r => decide (r.2.lock = stale.lock ∧
        r.2.container.1.next = stale.container.1.next ∧
        r.2.container.1.prev = stale.container.1.prev ∧
        r.2.container.2 = stale.container.2 ∧ r.2.pc = stale.pc ∧
        r.2.pending = stale.pending)) rfl (by decide)
  obtain ⟨hlock, hnext, hprev, hlist, hpc, hpending⟩ := of_decide_eq_true htest
  obtain rfl : s = stale := State.ext hlock
    (Prod.ext (Heap.ext hnext hprev) hlist) hpc hpending
  exact run.reachable

theorem not_noLostWakeup :
    ¬ ∀ s, (system defaultBuild (inQueue defaultBuild (Fin 3))
        (Fin 3)).Reachable s →
      NoLostWakeup (inQueue defaultBuild (Fin 3)) Chain s := by
  intro h
  have hone := pop_falls_asleep defaultBuild (i := 1) rfl rfl rfl stale_reachable
  have htwo := pop_falls_asleep defaultBuild (i := 2) rfl rfl rfl hone
  obtain ⟨tr, s, run, htest⟩ : ∃ tr s, System.Exec ⟨(· = (stale.goto 1
      (.popAsleep .untimed)).goto 2 (.popAsleep .untimed)),
        (system defaultBuild (inQueue defaultBuild (Fin 3)) (Fin 3)).step⟩ tr s ∧
        decide (s.container.2.isEmpty = false ∧ (s.pc 2).asleep = true ∧
          ∀ j, (s.pc j).signalling = false ∧ (s.pc j).returning = false) = true :=
    Exec.ofRecord (exec defaultBuild (inQueue defaultBuild (Fin 3)))
      ((stale.goto 1 (.popAsleep .untimed)).goto 2 (.popAsleep .untimed))
      [.call 0 (.push 1), .next 0, .next 0, .next 0, .signal 0 [1],
        .next 1, .next 1, .next 1]
      (fun r => decide (r.2.container.2.isEmpty = false ∧
        (r.2.pc 2).asleep = true ∧
        ∀ j, (r.2.pc j).signalling = false ∧ (r.2.pc j).returning = false)) rfl
      (by decide)
  obtain ⟨hnonempty, hasleep, hnobody⟩ := of_decide_eq_true htest
  obtain ⟨j, hj⟩ :=
    (h s (htwo.trans run.reachable)).attended hnonempty ⟨2, hasleep⟩
  simp [hnobody j] at hj

end Iocore.Queue
