import Iocore.Queue.Cancellation
import Iocore.Queue.Termination
import Iocore.Queue.Wakeup

/-!
# Where the calls of a queue come to an end

As long as no cancellation takes effect in a wait, some thread can always go
on, unless all calls have returned but those of `Pop()` that sleep while there
is nothing to pop.  The thread that holds the lock can always go on, and when
nobody holds it, every thread can that is awake; and if all consumers sleep or
are gone, no wake-up that is still to come can account for an element.
-/

namespace Iocore.Queue

open Foundation Foundation.System FifoOp Pthread

variable {S T Tid : Type}

def Action.isOwn : Action Tid T → Bool
  | .next _ | .expire _ | .signal _ _ => true
  | _ => false

/-- The timed `Pop`, where there is one, asserts that its timeout is not zero. -/
def NonzeroTimeouts (build : Build) (v : Variant S T) (_ : State Tid S T)
    (a : Action Tid T) : Prop :=
  ∀ i ms, a = .call i (.pop (.timed ms)) → v.timedPop = true →
    build.debugBuild = true → ms ≠ 0

def Pc.lockTimeout : Pc T → Option UInt32
  | .spinLock (.timed ms) _ | .spinTest (.timed ms) _ | .spinMiss (.timed ms) _
  | .spinYield (.timed ms) _ | .popLock (.timed ms) => some ms
  | _ => none

theorem entry_lockTimeout {v : Variant S T} {c : Call T} {pc : Pc T} {ms : UInt32}
    (h : c.entry v = some pc) (hms : pc.lockTimeout = some ms) :
    c = .pop (.timed ms) ∧ v.timedPop = true := by
  cases c with
  | push t =>
      cases h
      cases hms
  | isEmpty =>
      cases h
      cases hms
  | pop kind =>
      cases kind with
      | untimed =>
          obtain rfl := Option.some.inj h
          unfold spinFrom at hms
          split at hms <;> cases hms
      | timed ms' =>
          simp only [Call.entry] at h
          split at h
          · rename_i hoffered
            obtain rfl := Option.some.inj h
            unfold spinFrom at hms
            split at hms <;> cases hms <;> exact ⟨rfl, hoffered⟩
          · cases h

theorem leads_lockTimeout {maxSpin : Nat} {pc next : Pc T} {ms : UInt32}
    (h : (code maxSpin pc).Leads next) (hms : next.lockTimeout = some ms) :
    pc.lockTimeout = some ms := by
  cases leads_cases h with
  | spin kind | spinMiss kind | spinMissed kind | spinAgain kind | spinOut kind =>
      cases kind <;> exact hms
  | _ => cases hms

theorem code_none {maxSpin : Nat} {pc : Pc T} (h : code maxSpin pc = .none) :
    (∃ result, pc = .idle result) ∨ pc = .terminated := by
  cases pc with
  | idle result => exact .inl ⟨result, rfl⟩
  | terminated => exact .inr rfl
  | popLock kind | popAsleep kind => cases kind <;> cases h
  | _ => cases h

theorem code_lockFor {maxSpin : Nat} {pc next expired : Pc T} {ms : UInt32}
    (h : code maxSpin pc = .lockFor ms next expired) :
    pc = .popLock (.timed ms) := by
  cases pc with
  | popLock kind =>
      cases kind <;> cases h
      rfl
  | popAsleep kind => cases kind <;> cases h
  | _ => cases h

def Contract (build : Build) (v : Variant S T) (Fits : S → T → Prop)
    (s : State Tid S T) (a : Action Tid T) : Prop :=
  PushContract Fits s a ∧ SparesWaits s a ∧ NonzeroTimeouts build v s a

theorem sparesWaits_of_isOwn {s : State Tid S T} {a : Action Tid T}
    (h : a.isOwn = true) : SparesWaits s a := by
  rintro i rfl
  cases h

theorem contract_queue (build : Build) {s : State Tid (List T) T}
    {a : Action Tid T} (spares : SparesWaits s a) :
    Contract build (queue T) (fun _ _ => True) s a :=
  ⟨fun _ _ _ _ => trivial, spares, fun _ _ _ offered => by cases offered⟩

variable [DecidableEq Tid] [Fintype Tid]

structure Sound (build : Build) (v : Variant S T) (Content : S → List T → Prop)
    (s : State Tid S T) : Prop where
  balanced : Balanced v Content s
  running : ∀ i, (s.pc i).ending = false
  timeouts : ∀ i ms, (s.pc i).lockTimeout = some ms →
    build.debugBuild = true → ms ≠ 0

variable (build : Build) {v : Variant S T} {Fits : S → T → Prop}
  {Content : S → List T → Prop} {s : State Tid S T}

theorem sound_inductive (lawful : v.container.Lawful Fits Content) :
    ((system build v Tid).restrict (Contract build v Fits)).Inductive
      (Sound build v Content) where
  init := by
    rintro s rfl
    exact ⟨(balanced_inductive build lawful).init rfl, fun _ => rfl, nofun⟩
  step := by
    rintro s a s' h ⟨⟨contract, spares, nonzero⟩, hstep⟩
    have hbalanced :=
      (balanced_inductive build lawful).step h.balanced ⟨contract, hstep⟩
    have hunwedged : Unwedged s' := (unwedged_inductive build v).step
      ⟨h.balanced.locked, h.running⟩ ⟨spares, hstep⟩
    refine ⟨hbalanced, hunwedged.running, fun i ms hms debug => ?_⟩
    have hflow := (step_cases build h.balanced.locked hstep).flow i
    have hleads (leads : (code v.maxSpin (s.pc i)).Leads (s'.pc i)) : ms ≠ 0 :=
      h.timeouts i ms (leads_lockTimeout leads hms) debug
    have hnext (label : a = .next i) : ms ≠ 0 :=
      hleads (label ▸ hflow).leads_of_next
    cases hflow with
    | same label noCall stays => exact h.timeouts i ms (stays ▸ hms) debug
    | entry c result label before enters =>
        obtain ⟨rfl, offered⟩ := entry_lockTimeout enters hms
        exact nonzero i ms label offered debug
    | plain label | pop t label | miss label | test label => exact hnext label
    | aside label noCall empty plain leads => exact hleads leads
    | unwind label asleep leaves =>
        rw [leaves] at hms
        cases hms

theorem Sound.holder_moves (h : Sound build v Content s)
    (lawful : v.container.Lawful Fits Content)
    (fits : ∀ i t, s.pc i = .pushStore t → Fits s.container t) {j : Tid}
    (holding : (s.pc j).holding = true) :
    ∃ s', advance build v s j = .ok s' := by
  have hold : s.lock.hold = PThreadMutex.single (some j) := by
    obtain ⟨owner, token, hold⟩ := h.balanced.locked
    rw [hold, token.owner_eq holding]
  obtain ⟨xs, hcontent, -⟩ := h.balanced.enough
  unfold advance
  cases hcode : code v.maxSpin (s.pc j) with
  | lock next | lockFor ms next expired | sleep woken expired unwinding
  | signal next | yield next =>
      have htyped := (LockTyped.of_code hcode).1
      simp [holding] at htyped
  | none =>
      rcases code_none hcode with ⟨result, hidle⟩ | hended
      · rw [hidle] at holding
        cases holding
      · have hrunning := h.running j
        rw [hended] at hrunning
        cases hrunning
  | unlock next =>
      simp only [PThreadMutex.unlock_single build hold, Code.ok_bind]
      exact ⟨_, rfl⟩
  | wait asleep =>
      simp only [PThreadMutex.condRelease_single hold, Code.ok_bind]
      exact ⟨_, rfl⟩
  | push t next =>
      obtain ⟨container, hpush, -⟩ :=
        lawful.push hcontent (fits j t (code_push hcode))
      simp only [hpush, Code.ok_bind]
      exact ⟨_, rfl⟩
  | pop empty popped =>
      cases xs with
      | nil =>
          simp only [lawful.isEmpty hcontent, List.isEmpty_nil, if_true]
          exact ⟨_, rfl⟩
      | cons t xs =>
          obtain ⟨container, hpop, -⟩ := lawful.pop hcontent
          simp only [lawful.isEmpty hcontent, List.isEmpty_cons, hpop,
            Code.ok_bind]
          exact ⟨_, rfl⟩
  | isEmpty next => exact ⟨_, rfl⟩

omit [Fintype Tid] in
theorem lockFor_moves (free : s.lock.hold = PThreadMutex.single none) {i : Tid}
    {ms : UInt32} {next expired : Pc T}
    (hcode : code v.maxSpin (s.pc i) = .lockFor ms next expired)
    (nonzero : build.debugBuild = true → ms ≠ 0) :
    ∃ s', advance build v s i = .ok s' := by
  have hassert : build.assert (decide (ms ≠ 0)) = .ok () := by
    cases hdebug : build.debugBuild with
    | false => simp [Build.assert, hdebug]
    | true => exact (Build.assert_eq_ok hdebug).mpr (by simp [nonzero hdebug])
  have hlock : PThreadMutex.lockFor build s.lock i ms false =
      .ok (true, { s.lock with hold := .held i 0 }) := by
    rw [PThreadMutex.lockFor, hassert, mutexTimedlock, if_neg (by simp),
      PThreadMutex.mutexLock_single free (by simp)]
    rfl
  simp only [advance, hcode, hlock, Code.ok_bind]
  exact ⟨_, rfl⟩

omit [DecidableEq Tid] in
theorem exists_wakes (s : State Tid S T) : ∃ woken, Wakes s woken := by
  refine ⟨(Finset.univ.filter fun j => (s.pc j).asleep = true).toList, ?_, ?_⟩
  · intro j hj
    simpa using hj
  · intro hnil j
    have hempty := Finset.toList_eq_nil.mp hnil
    simpa using Finset.filter_eq_empty_iff.mp hempty (Finset.mem_univ j)

/-- When nobody holds the lock, every thread can go on that is in a call. -/
theorem Sound.awake_moves (h : Sound build v Content s)
    (free : s.lock.hold = PThreadMutex.single none) {i : Tid}
    (running : ∀ result, s.pc i ≠ .idle result)
    (awake : s.pc i ≠ .popAsleep .untimed) :
    ∃ a s', a.isOwn = true ∧ (system build v Tid).step s a s' := by
  have hfree : (s.pc i).holding = false := by
    obtain ⟨owner, token, hold⟩ := h.balanced.locked
    cases owner with
    | none => exact Bool.not_eq_true _ ▸ token.not_of_none i
    | some j =>
        rw [hold] at free
        cases free
  have hself : s.goto i (s.pc i) = s := by simp [State.goto]
  have hnext {s' : State Tid S T} (hadvance : advance build v s i = .ok s') :
      ∃ a s', a.isOwn = true ∧ (system build v Tid).step s a s' :=
    ⟨.next i, s', rfl, hadvance⟩
  cases hcode : code v.maxSpin (s.pc i) with
  | none =>
      rcases code_none hcode with ⟨result, hidle⟩ | hended
      · exact absurd hidle (running result)
      · have hrunning := h.running i
        rw [hended] at hrunning
        cases hrunning
  | unlock next | wait next | push t next | pop empty popped | isEmpty next =>
      have htyped := (LockTyped.of_code hcode)
      simp [LockTyped, hfree] at htyped
  | lock next =>
      have hlock := solo_lock build (i := i) free hcode
      rw [hself] at hlock
      exact hnext hlock
  | lockFor ms next expired =>
      have hpc : (s.pc i).lockTimeout = some ms := by
        rw [code_lockFor hcode]
        rfl
      obtain ⟨s', hlock⟩ := lockFor_moves build free hcode (h.timeouts i ms hpc)
      exact hnext hlock
  | yield next =>
      have hyield : advance build v s i = .ok (s.goto i next) := by
        simp only [advance, hcode]
      exact hnext hyield
  | signal next =>
      obtain ⟨woken, hwoken⟩ := exists_wakes s
      refine ⟨.signal i woken,
        { s with pc := wakeAll s.pc woken }.goto i next, rfl, ?_⟩
      change exec build v s (.signal i woken) = .ok _
      simp only [exec, hcode, if_pos hwoken]
  | sleep woken expired unwinding =>
      obtain ⟨hasleep, -⟩ := code_sleep hcode
      cases hpc : s.pc i with
      | popAsleep kind =>
          cases kind with
          | untimed => exact absurd hpc awake
          | timed ms =>
              refine ⟨.expire i, s.goto i (.popExpired ms), rfl, ?_⟩
              change expire build v s i = _
              simp only [expire, hpc, code]
      | _ => simp [hpc, Pc.asleep] at hasleep

/-! ## A queue in which nobody can go on -/

def Stuck (build : Build) (v : Variant S T) (s : State Tid S T) : Prop :=
  ∀ a s', a.isOwn = true → ¬ (system build v Tid).step s a s'

/-- All calls have returned, but those of `Pop()` that wait for an element. -/
def Quiescent (v : Variant S T) (s : State Tid S T) : Prop :=
  ∀ i, (∃ result, s.pc i = .idle result) ∨
    s.pc i = .popAsleep .untimed ∧ v.container.isEmpty s.container = true

theorem Sound.quiescent (h : Sound build v Content s)
    (lawful : v.container.Lawful Fits Content)
    (fits : ∀ i t, s.pc i = .pushStore t → Fits s.container t)
    (stuck : Stuck build v s) : Quiescent v s := by
  have hfree : s.lock.hold = PThreadMutex.single none := by
    obtain ⟨owner, token, hold⟩ := h.balanced.locked
    cases owner with
    | none => exact hold
    | some j =>
        obtain ⟨s', hmoves⟩ := h.holder_moves build lawful fits
          ((token j).mpr rfl)
        exact absurd hmoves (stuck (.next j) s' rfl)
  have hreturned (i : Tid) :
      (∃ result, s.pc i = .idle result) ∨ s.pc i = .popAsleep .untimed := by
    by_contra! hrunning
    obtain ⟨a, s', hown, hstep⟩ :=
      h.awake_moves build hfree hrunning.1 hrunning.2
    exact stuck a s' hown hstep
  obtain ⟨xs, hcontent, henough⟩ := h.balanced.enough
  -- Nobody is left that a wake-up could still come from or be under way to.
  have htally : total Pc.tally s.pc = 0 := by
    refine Finset.sum_eq_zero fun i _ => ?_
    rcases hreturned i with ⟨result, hpc⟩ | hpc <;> rw [hpc] <;> rfl
  intro i
  refine (hreturned i).imp_right fun hpc => ⟨hpc, ?_⟩
  have hlength := henough ⟨i, by rw [hpc]; rfl⟩
  rw [htally, Nat.le_zero, List.length_eq_zero_iff] at hlength
  rw [lawful.isEmpty hcontent, hlength]
  rfl

omit [DecidableEq Tid] [Fintype Tid] in
theorem Quiescent.code_cases (h : Quiescent v s) (i : Tid) :
    code v.maxSpin (s.pc i) = .none ∨
      code v.maxSpin (s.pc i) = .sleep (.popWoken .untimed) none .unwind := by
  rcases h i with ⟨result, hpc⟩ | ⟨hpc, -⟩
  · rw [hpc]
    exact .inl rfl
  · rw [hpc]
    exact .inr rfl

theorem Quiescent.stuck (h : Quiescent v s) : Stuck build v s := by
  intro a s' hown hstep
  change exec build v s a = .ok s' at hstep
  cases a with
  | next i =>
      rcases h.code_cases i with hcode | hcode <;>
        simp [exec, advance, hcode] at hstep
  | expire i =>
      rcases h.code_cases i with hcode | hcode <;>
        simp [exec, expire, hcode] at hstep
  | signal i woken =>
      rcases h.code_cases i with hcode | hcode <;> simp [exec, hcode] at hstep
  | _ => cases hown

/-- Nothing that was pushed is lost, and nothing that was taken is withheld. -/
structure Settled (v : Variant S T) (Content : S → List T → Prop)
    (tr : History (State Tid S T) (Action Tid T)) (s : State Tid S T) :
    Prop where
  quiescent : Quiescent v s
  order : ∃ xs, Content s.container xs ∧
    pushes (operations v tr) = pops (operations v tr) ++ xs
  handed : ∀ i, taken v i tr = given i tr s

theorem settled (lawful : v.container.Lawful Fits Content)
    (spins : v.timedPop = true → 0 < v.maxSpin)
    {tr : History (State Tid S T) (Action Tid T)}
    (run : (system build v Tid).Exec tr s)
    (contract : Meets (Contract build v Fits) tr)
    (fits : ∀ i t, s.pc i = .pushStore t → Fits s.container t)
    (stuck : Stuck build v s) : Settled v Content tr s := by
  have hsound := (sound_inductive build lawful).exec (run.restrict contract)
  have hquiescent := hsound.quiescent build lawful fits stuck
  have hlinearizable := linearizable build lawful spins run fun p hp =>
    (contract p hp).1
  refine ⟨hquiescent, hlinearizable.order, fun i => ?_⟩
  have hinHand : (s.pc i).inHand = none := by
    rcases hquiescent i with ⟨result, hpc⟩ | ⟨hpc, -⟩ <;> rw [hpc] <;> rfl
  rw [(hlinearizable.handed i).taken, hinHand]
  rfl

omit [DecidableEq Tid] in
theorem gain_eq_zero_of_isOwn {s : State Tid S T} {a : Action Tid T}
    (h : a.isOwn = true) : gain v s a = 0 := by
  cases a with
  | next i | expire i | signal i woken => rfl
  | _ => cases h

theorem sound_queue :
    ((system build (queue T) Tid).restrict SparesWaits).Inductive
      (Sound build (queue T) fun xs ys => xs = ys) where
  init := (sound_inductive build stdQueue_lawful).init
  step h step := (sound_inductive build stdQueue_lawful).step h
    ⟨contract_queue build step.1, step.2⟩

end Iocore.Queue
