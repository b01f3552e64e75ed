import Iocore.Foundation.Fifo
import Iocore.Queue.Locking

/-!
# The queues are linearizable

Every operation on the container happens at one step, under the lock, between
the beginning and the end of the call it belongs to.  In the order of these
steps the elements pushed are the elements popped followed by the content of
the container, in every run in which the container behaves as a sequence: a
`std::queue` always does, an `InList` as long as no element is pushed while it
is linked.  What a call gives to its caller is read off its result, in the state
after the step by which it returns.
-/

namespace Iocore.Queue

open Foundation Foundation.System FifoOp Pthread

variable {S T Tid : Type}

/-! ## Operations, and what the callers get -/

section History

variable [DecidableEq Tid] (v : Variant S T)

def operation (s : State Tid S T) : Action Tid T → Option (FifoOp T)
  | .next i =>
      match code v.maxSpin (s.pc i) with
      | .push t _ => some (.push t)
      | .pop _ _ =>
          if v.container.isEmpty s.container then none
          else
            match v.container.pop s.container with
            | .ok (t, _) => some (.pop t)
            | .error _ => none
      | _ => none
  | _ => none

def operations (tr : History (State Tid S T) (Action Tid T)) :
    List (FifoOp T) :=
  observed (operation v) tr

def Pc.inHand : Pc T → Option T
  | .spinHit _ t | .popUnlock _ t => some t
  | _ => none

def Pc.returned : Pc T → Option T
  | .idle (.popped _ t) => t
  | _ => none

/-- The element a call returns by going from one control point to the next. -/
def returns (pc next : Pc T) : Option T :=
  if pc.isIdle then none else next.returned

def takes (i : Tid) (s : State Tid S T) : Action Tid T → Option T
  | .next j =>
      if j = i then (operation v s (.next j)).bind FifoOp.popped else none
  | _ => none

def taken (i : Tid) (tr : History (State Tid S T) (Action Tid T)) : List T :=
  observed (takes v i) tr

def takenInCall (i : Tid) :
    History (State Tid S T) (Action Tid T) → List T
  | [] => []
  | (s, .call j c) :: tr =>
      if j = i then []
      else (takes v i s (.call j c)).toList ++ takenInCall i tr
  | (s, a) :: tr => (takes v i s a).toList ++ takenInCall i tr

/-- What the calls of thread `i` have returned, read off their results. -/
def given (i : Tid) : History (State Tid S T) (Action Tid T) →
    State Tid S T → List T
  | [], _ => []
  | (before, _) :: tr, s =>
      (returns (before.pc i) (s.pc i)).toList ++ given i tr before

def duringCall (i : Tid) : History (State Tid S T) (Action Tid T) →
    State Tid S T → List (State Tid S T)
  | [], s => [s]
  | (before, .call j _) :: tr, s =>
      if j = i then [s] else s :: duringCall i tr before
  | (before, _) :: tr, s => s :: duringCall i tr before

end History

variable [DecidableEq Tid] {v : Variant S T} {s s' : State Tid S T}

inductive Operates (v : Variant S T) (s s' : State Tid S T) (a : Action Tid T) :
    Prop
  | none (operation : operation v s a = none)
      (container : s'.container = s.container)
  | push (i : Tid) (t : T) (label : a = .next i) (at_ : s.pc i = .pushStore t)
      (operation : operation v s a = some (.push t))
      (pushed : v.container.push s.container t = .ok s'.container)
  | pop (i : Tid) (t : T) (label : a = .next i)
      (holding : (s.pc i).holding = true)
      (operation : operation v s a = some (.pop t))
      (nonempty : v.container.isEmpty s.container = false)
      (popped : v.container.pop s.container = .ok (t, s'.container))

theorem code_push {maxSpin : Nat} {pc next : Pc T} {t : T}
    (h : code maxSpin pc = .push t next) : pc = .pushStore t := by
  cases pc with
  | pushStore =>
      cases h
      rfl
  | popLock kind | popAsleep kind => cases kind <;> cases h
  | _ => cases h

theorem StepCases.operates {a : Action Tid T} (h : StepCases v s s' a) :
    Operates v s s' a := by
  cases h with
  | call i c result pc before entry lock container pcs =>
      exact .none rfl container
  | acquire i next code free lock container pcs =>
      refine .none ?_ container
      rcases code with code | ⟨ms, expired, code⟩ <;>
        simp only [operation, code]
  | release i next code lock container pcs =>
      refine .none ?_ container
      rcases code with code | code <;> simp only [operation, code]
  | push i t next code pushed lock pcs =>
      refine .push i t rfl (code_push code) ?_ pushed
      simp only [operation, code]
  | pop i t empty popped code nonempty taken lock pcs =>
      refine .pop i t rfl (LockTyped.of_code code).1 ?_ nonempty taken
      simp [operation, code, nonempty, taken]
  | miss i empty popped code isEmpty lock container pcs =>
      refine .none ?_ container
      simp [operation, code, isEmpty]
  | test i next code lock container pcs =>
      exact .none (by simp only [operation, code]) container
  | yield i next code lock container pcs =>
      exact .none (by simp only [operation, code]) container
  | expireLock i ms next expired code lock container pcs =>
      exact .none rfl container
  | expireWait i woken expired unwinding code lock container pcs =>
      exact .none rfl container
  | wake i asleep lock container pcs => exact .none rfl container
  | signal i woken next code wakes lock container pcs =>
      exact .none rfl container
  | cancel i lock container pcs => exact .none rfl container
  | cancelAct i asleep pending lock container pcs => exact .none rfl container

/-! ## The order of the operations -/

/-- An element is pushed only where it fits into the container. -/
def PushContract (Fits : S → T → Prop) (s : State Tid S T)
    (a : Action Tid T) : Prop :=
  ∀ i t, a = .next i → s.pc i = .pushStore t → Fits s.container t

section Order

variable [Fintype Tid] (build : Build) {Fits : S → T → Prop}
  {Content : S → List T → Prop}

theorem fifo_simulation (lawful : v.container.Lawful Fits Content) :
    ((system build v Tid).restrict (PushContract Fits)).Simulation (fifo T)
      (operation v) fun s xs => Content s.container xs where
  init := by
    rintro s rfl
    exact ⟨[], rfl, lawful.initial⟩
  step := by
    rintro s xs a s' run hcontent ⟨hcontract, hstep⟩
    have hlocked := ((locked_inductive build).restrict _).reachable run
    cases (step_cases build hlocked hstep).operates with
    | none operation container =>
        rw [operation, container]
        exact hcontent
    | push i t label at_ operation pushed =>
        rw [operation]
        obtain ⟨container, hpush, hafter⟩ :=
          lawful.push hcontent (hcontract i t label at_)
        obtain rfl := Except.ok.inj (pushed.symm.trans hpush)
        exact ⟨xs ++ [t], rfl, hafter⟩
    | pop i t label holding operation nonempty popped =>
        rw [operation]
        cases xs with
        | nil => simp [lawful.isEmpty hcontent] at nonempty
        | cons x xs =>
            obtain ⟨container, hpop, hafter⟩ := lawful.pop hcontent
            cases Except.ok.inj (popped.symm.trans hpop)
            exact ⟨xs, rfl, hafter⟩

theorem operations_balance (lawful : v.container.Lawful Fits Content)
    {tr : History (State Tid S T) (Action Tid T)}
    (run : (system build v Tid).Exec tr s)
    (contract : Meets (PushContract Fits) tr) :
    ∃ xs, Content s.container xs ∧
      pushes (operations v tr) = pops (operations v tr) ++ xs := by
  obtain ⟨tr', xs, habstract, hops, hcontent⟩ :=
    (fifo_simulation build lawful).exec (run.restrict contract)
  refine ⟨xs, hcontent, ?_⟩
  have hbalance := fifo_balance habstract
  rwa [hops] at hbalance

end Order

/-! ## From the container to the callers -/

theorem takes_of_ne {a : Action Tid T} {j : Tid} (label : a ≠ .next j) :
    takes v j s a = none := by
  cases a with
  | next i => exact if_neg fun e => label (by rw [e])
  | _ => rfl

theorem takenInCall_cons {a : Action Tid T} {j : Tid}
    (noCall : ∀ c, a ≠ .call j c)
    (tr : History (State Tid S T) (Action Tid T)) :
    takenInCall v j ((s, a) :: tr) =
      (takes v j s a).toList ++ takenInCall v j tr := by
  cases a with
  | call i c => exact if_neg fun e => noCall c (by rw [e])
  | _ => rfl

theorem code_pop {maxSpin : Nat} {pc empty : Pc T} {popped : T → Pc T}
    (h : code maxSpin pc = .pop empty popped) :
    (∃ kind i, pc = .spinTest kind i ∧ empty = .spinMiss kind i ∧
      popped = .spinHit kind) ∨
    ∃ kind again, pc = .popTest kind again ∧ empty = .popWait kind ∧
      popped = .popUnlock kind := by
  cases pc with
  | spinTest kind i =>
      cases h
      exact .inl ⟨kind, i, rfl, rfl, rfl⟩
  | popTest kind again =>
      cases h
      exact .inr ⟨kind, again, rfl, rfl, rfl⟩
  | popLock kind | popAsleep kind => cases kind <;> cases h
  | _ => cases h

theorem code_isEmpty {maxSpin : Nat} {pc : Pc T} {next : Bool → Pc T}
    (h : code maxSpin pc = .isEmpty next) :
    pc = .emptyTest ∧ next = .emptyUnlock := by
  cases pc with
  | emptyTest =>
      cases h
      exact ⟨rfl, rfl⟩
  | popLock kind | popAsleep kind => cases kind <;> cases h
  | _ => cases h

theorem plain_takes {j : Tid}
    (plain : (code v.maxSpin (s.pc j)).plain = true) :
    takes v j s (.next j) = none := by
  cases hcode : code v.maxSpin (s.pc j) <;>
    simp_all [takes, operation, Instr.plain, FifoOp.popped]

theorem entry_inHand {c : Call T} {pc : Pc T} (h : c.entry v = some pc) :
    pc.inHand = none ∧ pc.isIdle = false := by
  cases entry_entered h <;> exact ⟨rfl, rfl⟩

theorem inHand_of_not_holding {pc : Pc T} (h : pc.holding = false) :
    pc.inHand = none := by
  cases pc <;> first | rfl | cases h

theorem returned_of_not_idle {pc : Pc T} (h : pc.isIdle = false) :
    pc.returned = none := by
  cases pc with
  | idle result => cases h
  | _ => rfl

theorem leads_inHand {maxSpin : Nat} {pc next : Pc T}
    (plain : (code maxSpin pc).plain = true)
    (h : (code maxSpin pc).Leads next) :
    next.inHand = none ∧ next.returned = pc.inHand := by
  cases leads_cases h with
  | spinMiss | spinHit | miss | hit | empty => cases plain
  | _ => exact ⟨rfl, rfl⟩

theorem leads_notIdle {maxSpin : Nat} {pc next : Pc T}
    (h : (code maxSpin pc).Leads next) : pc.isIdle = false := by
  cases pc with
  | idle result => cases h
  | _ => rfl

inductive Moves (v : Variant S T) (s s' : State Tid S T) (a : Action Tid T)
    (j : Tid) : Prop
  | stays (noCall : ∀ c, a ≠ .call j c) (takes : takes v j s a = none)
      (pc : s'.pc j = s.pc j)
  | begins (c : Call T) (label : a = .call j c)
      (idle : (s.pc j).isIdle = true) (inHand : (s'.pc j).inHand = none)
      (returned : (s'.pc j).returned = none)
  | goesOn (noCall : ∀ c, a ≠ .call j c) (running : (s.pc j).isIdle = false)
      (balance : (takes v j s a).toList ++ (s.pc j).inHand.toList =
        (s'.pc j).inHand.toList ++ (s'.pc j).returned.toList)

theorem Flow.moves {a : Action Tid T} {j : Tid} (flow : Flow v s s' a j) :
    Moves v s s' a j := by
  have hrunning : (code v.maxSpin (s.pc j)).Leads (s'.pc j) →
      (s.pc j).isIdle = false := leads_notIdle
  have hnext (label : a = .next j) (c : Call T) : a ≠ .call j c := by
    rw [label]
    intro h
    cases h
  cases flow with
  | same label noCall stays => exact .stays noCall (takes_of_ne label) stays
  | entry c result label before enters =>
      obtain ⟨hhand, hidle⟩ := entry_inHand enters
      exact .begins c label (by rw [before]; rfl) hhand
        (returned_of_not_idle hidle)
  | plain label plain leads =>
      obtain ⟨hafter, hreturned⟩ := leads_inHand plain leads
      refine .goesOn (hnext label) (hrunning leads) ?_
      rw [label, plain_takes plain, hafter, hreturned]
  | aside label noCall empty plain leads =>
      obtain ⟨hafter, hreturned⟩ := leads_inHand plain leads
      refine .goesOn noCall (hrunning leads) ?_
      rw [takes_of_ne label, hafter, hreturned]
  | pop t label empty popped code nonempty taken goes =>
      have htakes : takes v j s a = some t := by
        simp [label, takes, operation, code, nonempty, taken, FifoOp.popped]
      rcases code_pop code with ⟨kind, i, hpc, -, rfl⟩ |
        ⟨kind, again, hpc, -, rfl⟩
      · refine .goesOn (hnext label) (by rw [hpc]; rfl) ?_
        rw [htakes, hpc, goes]
        rfl
      · refine .goesOn (hnext label) (by rw [hpc]; rfl) ?_
        rw [htakes, hpc, goes]
        rfl
  | miss label empty popped code isEmpty goes =>
      have htakes : takes v j s a = none := by
        simp [label, takes, operation, code, isEmpty]
      rcases code_pop code with ⟨kind, i, hpc, rfl, -⟩ |
        ⟨kind, again, hpc, rfl, -⟩
      · refine .goesOn (hnext label) (by rw [hpc]; rfl) ?_
        rw [htakes, hpc, goes]
        rfl
      · refine .goesOn (hnext label) (by rw [hpc]; rfl) ?_
        rw [htakes, hpc, goes]
        rfl
  | test label next code goes =>
      obtain ⟨hpc, rfl⟩ := code_isEmpty code
      have htakes : takes v j s a = none := by
        simp [label, takes, operation, code]
      refine .goesOn (hnext label) (by rw [hpc]; rfl) ?_
      rw [htakes, hpc, goes]
      rfl
  | unwind label asleep leaves =>
      have hlabel : a ≠ .next j := by
        rw [label]
        intro h
        cases h
      have hpc : (s.pc j).isIdle = false := by
        cases hpc : s.pc j with
        | idle result => rw [hpc] at asleep; cases asleep
        | _ => rfl
      have hcall (c : Call T) : a ≠ .call j c := by
        rw [label]
        intro h
        cases h
      refine .goesOn hcall hpc ?_
      rw [takes_of_ne hlabel, leaves,
        inHand_of_not_holding (asleep_holding asleep)]
      rfl

/--
What the calls of a thread have taken is in hand or was returned, and each call
returns what it has taken itself.
-/
structure Handed (v : Variant S T) (tr : History (State Tid S T) (Action Tid T))
    (s : State Tid S T) (j : Tid) : Prop where
  taken : taken v j tr = (s.pc j).inHand.toList ++ given j tr s
  inCall : takenInCall v j tr =
    (s.pc j).inHand.toList ++ (s.pc j).returned.toList

theorem Handed.step {a : Action Tid T}
    {tr : History (State Tid S T) (Action Tid T)} {j : Tid}
    (h : Handed v tr s j) (moves : Moves v s s' a j) :
    Handed v ((s, a) :: tr) s' j := by
  have htaken : Queue.taken v j ((s, a) :: tr) =
      (takes v j s a).toList ++ Queue.taken v j tr := observed_cons ..
  have hgiven : given j ((s, a) :: tr) s' =
      (returns (s.pc j) (s'.pc j)).toList ++ given j tr s := rfl
  cases moves with
  | stays noCall takes pc =>
      have hreturns : returns (s.pc j) (s.pc j) = none := by
        cases hpc : s.pc j <;> rfl
      constructor
      · rw [htaken, hgiven, takes, pc, hreturns]
        exact h.taken
      · rw [takenInCall_cons noCall, takes, pc]
        exact h.inCall
  | begins c label idle inHand returned =>
      have hbefore : (s.pc j).inHand = none := by
        cases hpc : s.pc j with
        | idle result => rfl
        | _ => rw [hpc] at idle; cases idle
      have htakes : takes v j s a = none := by rw [label]; rfl
      constructor
      · rw [htaken, hgiven, htakes, inHand, returns, if_pos idle, h.taken,
          hbefore]
      · rw [label, takenInCall, if_pos rfl, inHand, returned]
        rfl
  | goesOn noCall running balance =>
      have hreturned := returned_of_not_idle running
      constructor
      · rw [htaken, hgiven, h.taken, ← List.append_assoc, balance, returns,
          running, List.append_assoc]
        rfl
      · rw [takenInCall_cons noCall, h.inCall, hreturned, ← balance]
        simp

theorem mem_taken_of_inCall {tr : History (State Tid S T) (Action Tid T)}
    {j : Tid} {t : T} (h : t ∈ takenInCall v j tr) : t ∈ taken v j tr := by
  induction tr with
  | nil => exact h
  | cons p tr ih =>
      obtain ⟨before, a⟩ := p
      have htaken : taken v j ((before, a) :: tr) =
          (takes v j before a).toList ++ taken v j tr := observed_cons ..
      rw [htaken]
      by_cases hcall : ∃ c, a = .call j c
      · obtain ⟨c, rfl⟩ := hcall
        simp [takenInCall] at h
      · rw [takenInCall_cons (fun c e => hcall ⟨c, e⟩)] at h
        rcases List.mem_append.mp h with h | h
        · exact List.mem_append_left _ h
        · exact List.mem_append_right _ (ih h)

theorem mem_pops_of_taken {tr : History (State Tid S T) (Action Tid T)}
    {j : Tid} {t : T} (h : t ∈ taken v j tr) :
    t ∈ pops (operations v tr) := by
  obtain ⟨⟨before, a⟩, hmem, htakes⟩ := List.mem_filterMap.mp h
  have hpopped : (operation v before a).bind FifoOp.popped = some t := by
    cases a with
    | next i =>
        simp only [takes] at htakes
        split at htakes
        · exact htakes
        · cases htakes
    | _ => cases htakes
  obtain ⟨op, hop, hpop⟩ := Option.bind_eq_some_iff.mp hpopped
  refine List.mem_reverse.mpr (List.mem_filterMap.mpr ⟨op, ?_, hpop⟩)
  exact List.mem_filterMap.mpr ⟨(before, a), hmem, hop⟩

/-! ## What a call has seen of the container -/

def Result.shows : Result T → Option Bool
  | .popped (.timed _) none => some true
  | .tested empty => some empty
  | _ => none

def Pc.seen : Pc T → Option Bool
  | .idle result => result.shows
  | .spinLock _ (_ + 1) | .spinTest _ (_ + 1) | .spinMiss _ _ | .spinYield _ _
  | .popLock (.timed _) | .popTest (.timed _) _ | .popWait (.timed _)
  | .popAsleep (.timed _) | .popWoken (.timed _) | .popExpired _
  | .popGiveUp _ => some true
  | .emptyUnlock empty => some empty
  | _ => none

theorem entry_seen (spins : v.timedPop = true → 0 < v.maxSpin) {c : Call T}
    {pc : Pc T} (h : c.entry v = some pc) : pc.seen = none := by
  cases entry_entered h with
  | pop kind noSpin offered =>
      cases kind with
      | untimed => rfl
      | timed ms =>
          have := spins (offered.resolve_left nofun)
          omega
  | _ => rfl

theorem leads_seen {maxSpin : Nat} {pc next : Pc T} {b : Bool}
    (plain : (code maxSpin pc).plain = true)
    (h : (code maxSpin pc).Leads next) (hseen : next.seen = some b) :
    pc.seen = some b := by
  cases leads_cases h with
  | spinMiss | spinHit | miss | hit | empty => cases plain
  | spin kind i => cases i <;> exact hseen
  | spinOut kind | test kind | wait kind | woken kind | retest kind =>
      cases kind <;> first | exact hseen | cases hseen
  | spinPopped kind t | popped kind t => cases kind <;> cases hseen
  | _ => exact hseen

theorem mem_duringCall_self (j : Tid)
    (tr : History (State Tid S T) (Action Tid T)) (s : State Tid S T) :
    s ∈ duringCall j tr s := by
  cases tr with
  | nil => exact List.mem_singleton_self s
  | cons p tr =>
      obtain ⟨before, a⟩ := p
      cases a with
      | call i c =>
          unfold duringCall
          split
          · exact List.mem_singleton_self s
          · exact List.mem_cons_self
      | _ => exact List.mem_cons_self

theorem duringCall_cons {j : Tid} {a : Action Tid T}
    (noCall : ∀ c, a ≠ .call j c)
    (tr : History (State Tid S T) (Action Tid T)) :
    duringCall j ((s, a) :: tr) s' = s' :: duringCall j tr s := by
  cases a with
  | call i c => exact if_neg fun e => noCall c (by rw [e])
  | _ => rfl

def Witnessed (v : Variant S T) (tr : History (State Tid S T) (Action Tid T))
    (s : State Tid S T) (j : Tid) : Prop :=
  ∀ b, (s.pc j).seen = some b →
    ∃ y ∈ duringCall j tr s, v.container.isEmpty y.container = b

theorem Witnessed.step (spins : v.timedPop = true → 0 < v.maxSpin)
    {a : Action Tid T} {tr : History (State Tid S T) (Action Tid T)} {j : Tid}
    (h : Witnessed v tr s j) (flow : Flow v s s' a j) :
    Witnessed v ((s, a) :: tr) s' j := by
  intro b hseen
  -- Seen before this step, or by it.
  have hearlier : (∀ c, a ≠ .call j c) → (s.pc j).seen = some b →
      ∃ y ∈ duringCall j ((s, a) :: tr) s',
        v.container.isEmpty y.container = b := by
    intro noCall hbefore
    obtain ⟨y, hy, hempty⟩ := h b hbefore
    rw [duringCall_cons noCall]
    exact ⟨y, List.mem_cons_of_mem s' hy, hempty⟩
  have hnow : a = .next j → v.container.isEmpty s.container = b →
      ∃ y ∈ duringCall j ((s, a) :: tr) s',
        v.container.isEmpty y.container = b := by
    intro label hempty
    rw [duringCall_cons (fun c => by rw [label]; nofun)]
    exact ⟨s, List.mem_cons_of_mem s' (mem_duringCall_self j tr s), hempty⟩
  cases flow with
  | same label noCall stays => exact hearlier noCall (by rwa [← stays])
  | entry c result label before enters =>
      simp [entry_seen spins enters] at hseen
  | plain label plain leads =>
      exact hearlier (fun c => by rw [label]; nofun)
        (leads_seen plain leads hseen)
  | aside label noCall empty plain leads =>
      exact hearlier noCall (leads_seen plain leads hseen)
  | pop t label empty popped code nonempty taken goes =>
      rcases code_pop code with ⟨kind, i, -, -, rfl⟩ |
        ⟨kind, again, -, -, rfl⟩ <;> rw [goes] at hseen <;> cases hseen
  | miss label empty popped code isEmpty goes =>
      have htrue : b = true := by
        rcases code_pop code with ⟨kind, i, -, rfl, -⟩ |
          ⟨kind, again, -, rfl, -⟩
        · rw [goes] at hseen
          exact (Option.some.inj hseen).symm
        · rw [goes] at hseen
          cases kind with
          | untimed => cases hseen
          | timed ms => exact (Option.some.inj hseen).symm
      exact hnow label (by rw [isEmpty, htrue])
  | test label next code goes =>
      obtain ⟨-, rfl⟩ := code_isEmpty code
      rw [goes] at hseen
      exact hnow label (Option.some.inj hseen)
  | unwind label asleep leaves =>
      rw [leaves] at hseen
      cases hseen

theorem entry_notNull {c : Call T} {pc : Pc T} (h : c.entry v = some pc) :
    pc ≠ .idle (.popped .untimed none) := by
  rintro rfl
  cases (entry_inHand h).2

theorem leads_notNull {maxSpin : Nat} {pc next : Pc T}
    (h : (code maxSpin pc).Leads next) :
    next ≠ .idle (.popped .untimed none) := by
  rintro rfl
  cases leads_cases h

/-! ## The queue classes -/

/--
The state of a queue after a run.  `order` is the linear order of the
operations; `handed` connects it to what the callers of `Pop` got, and
`notNull` says that `Pop()` got one of the elements that were pushed;
`nullEmpty` and `tested` are about the step in which a call of thread `i`
returns.
-/
structure Linearizable [Fintype Tid] (build : Build) (v : Variant S T)
    (Content : S → List T → Prop) (tr : History (State Tid S T) (Action Tid T))
    (s : State Tid S T) : Prop where
  exclusive : AtMostOne (fun pc : Pc T => pc.holding = true) s.pc
  locked : ∀ i, s.lock.hold.owner = some i ↔ (s.pc i).holding = true
  order : ∃ xs, Content s.container xs ∧
    pushes (operations v tr) = pops (operations v tr) ++ xs
  handed : ∀ i, Handed v tr s i
  notNull : ∀ i r, s.pc i = .idle (.popped .untimed r) →
    ∃ t ∈ pushes (operations v tr), r = some t
  nullEmpty : ∀ {i ms a s'}, (system build v Tid).step s a s' →
    (∀ result, s.pc i ≠ .idle result) →
    s'.pc i = .idle (.popped (.timed ms) none) →
    ∃ y ∈ duringCall i tr s, v.container.isEmpty y.container = true
  tested : ∀ {i empty a s'}, (system build v Tid).step s a s' →
    (∀ result, s.pc i ≠ .idle result) →
    s'.pc i = .idle (.tested empty) →
    ∃ y ∈ duringCall i tr s, v.container.isEmpty y.container = empty

/-- What a call reports when it returns was so during the call. -/
private theorem reported {a : Action Tid T} {i : Tid}
    {tr : History (State Tid S T) (Action Tid T)} {result : Result T} {b : Bool}
    (hwitnessed : Witnessed v tr s i) (flow : Flow v s s' a i)
    (running : ∀ result, s.pc i ≠ .idle result)
    (returned : s'.pc i = .idle result) (hshows : result.shows = some b) :
    ∃ y ∈ duringCall i tr s, v.container.isEmpty y.container = b := by
  have hseen : (s'.pc i).seen = some b := by rwa [returned]
  have hplain : (code v.maxSpin (s.pc i)).plain = true →
      (code v.maxSpin (s.pc i)).Leads (s'.pc i) →
      ∃ y ∈ duringCall i tr s, v.container.isEmpty y.container = b :=
    fun plain leads => hwitnessed b (leads_seen plain leads hseen)
  cases flow with
  | same label noCall stays => exact absurd (stays ▸ returned) (running _)
  | entry c result' label before enters => exact absurd before (running _)
  | plain label plain leads => exact hplain plain leads
  | aside label noCall empty plain leads => exact hplain plain leads
  | pop t label empty popped code nonempty taken goes =>
      rcases code_pop code with ⟨kind, i, -, -, rfl⟩ |
        ⟨kind, again, -, -, rfl⟩ <;> rw [goes] at returned <;> cases returned
  | miss label empty popped code isEmpty goes =>
      rcases code_pop code with ⟨kind, i, -, rfl, -⟩ |
        ⟨kind, again, -, rfl, -⟩ <;> rw [goes] at returned <;> cases returned
  | test label next code goes =>
      obtain ⟨-, rfl⟩ := code_isEmpty code
      rw [goes] at returned
      cases returned
  | unwind label asleep leaves =>
      rw [leaves] at returned
      cases returned

section Classes

variable [Fintype Tid] (build : Build) {Fits : S → T → Prop}
  {Content : S → List T → Prop}

theorem linearizable (lawful : v.container.Lawful Fits Content)
    (spins : v.timedPop = true → 0 < v.maxSpin)
    {tr : History (State Tid S T) (Action Tid T)}
    (run : (system build v Tid).Exec tr s)
    (contract : Meets (PushContract Fits) tr) :
    Linearizable build v Content tr s := by
  have hlocked := (locked_inductive build).exec run
  have hcalls : (∀ i, Handed v tr s i) ∧ (∀ i, Witnessed v tr s i) ∧
      ∀ i, s.pc i ≠ .idle (.popped .untimed none) := by
    clear contract
    induction run with
    | start init =>
        obtain rfl := init
        exact ⟨fun _ => ⟨rfl, rfl⟩, fun _ => nofun, fun _ => nofun⟩
    | @next tr s s' a run step ih =>
        have hbefore := (locked_inductive build).exec run
        have hcases := step_cases build hbefore step
        obtain ⟨hhanded, hwitnessed, hnotNull⟩ := ih hbefore
        refine ⟨fun i => (hhanded i).step (hcases.flow i).moves,
          fun i => (hwitnessed i).step spins (hcases.flow i), fun i => ?_⟩
        rcases (hcases.flow i).leads with stays | ⟨c, result, -, enters⟩ |
          leads | ⟨-, -, leaves⟩
        · rw [stays]
          exact hnotNull i
        · exact entry_notNull enters
        · exact leads_notNull leads
        · rw [leaves]
          nofun
  obtain ⟨hhanded, hwitnessed, hnotNull⟩ := hcalls
  constructor
  · exact hlocked.atMostOne
  · exact fun i => hlocked.owner_iff
  · exact operations_balance build lawful run contract
  · exact hhanded
  · intro i r hpc
    cases r with
    | none => exact absurd hpc (hnotNull i)
    | some t =>
        have hcall : t ∈ takenInCall v i tr := by
          rw [(hhanded i).inCall, hpc]
          exact List.mem_singleton_self t
        obtain ⟨xs, -, hbalance⟩ := operations_balance build lawful run contract
        refine ⟨t, ?_, rfl⟩
        rw [hbalance]
        exact List.mem_append_left xs
          (mem_pops_of_taken (mem_taken_of_inCall hcall))
  · intro i ms a s' step running returned
    exact reported (hwitnessed i) ((step_cases build hlocked step).flow i)
      running returned rfl
  · intro i empty a s' step running returned
    exact reported (hwitnessed i) ((step_cases build hlocked step).flow i)
      running returned rfl

end Classes

end Iocore.Queue
