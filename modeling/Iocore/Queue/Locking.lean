import Iocore.Queue.Model

/-!
# The lock discipline of the queues

Every program takes the lock before it touches the container and gives it back
before it returns or goes to sleep.  From that alone, the lock is held exactly
once, by the one thread whose control point lies between taking and releasing
it, and a step can only do what is listed in `StepCases`.
-/

namespace Iocore.Queue

open Foundation Foundation.System Pthread

variable {S T : Type}

def Pc.holding : Pc T → Bool
  | .pushStore _ | .pushUnlock | .spinTest _ _ | .spinHit _ _ | .spinMiss _ _
  | .popTest _ _ | .popWait _ | .popGiveUp _ | .popUnlock _ _ | .emptyTest
  | .emptyUnlock _ | .terminated => true
  | _ => false

def LockTyped (pc : Pc T) : Instr T → Prop
  | .none => True
  | .lock next => pc.holding = false ∧ next.holding = true
  | .lockFor _ next expired =>
      pc.holding = false ∧ next.holding = true ∧ expired.holding = false
  | .unlock next | .wait next => pc.holding = true ∧ next.holding = false
  | .push _ next => pc.holding = true ∧ next.holding = true
  | .pop empty popped =>
      pc.holding = true ∧ empty.holding = true ∧
        ∀ t, (popped t).holding = true
  | .isEmpty next => pc.holding = true ∧ ∀ b, (next b).holding = true
  | .sleep woken expired unwinding =>
      pc.holding = false ∧ woken.holding = false ∧
        (∀ next, expired = some next → next.holding = false) ∧
        unwinding.holding = false
  | .signal next | .yield next => pc.holding = false ∧ next.holding = false

theorem spinFrom_holding (maxSpin : Nat) (kind : PopKind) (i : Nat) :
    (spinFrom maxSpin kind i : Pc T).holding = false := by
  unfold spinFrom
  split <;> rfl

theorem code_lockTyped (maxSpin : Nat) (pc : Pc T) :
    LockTyped pc (code maxSpin pc) := by
  cases pc with
  | spinYield kind i => exact ⟨rfl, spinFrom_holding maxSpin kind (i + 1)⟩
  | popLock kind | popAsleep kind =>
      cases kind <;> simp [code, LockTyped, Pc.holding]
  | _ => simp [code, LockTyped, Pc.holding]

theorem LockTyped.of_code {maxSpin : Nat} {pc : Pc T} {instr : Instr T}
    (h : code maxSpin pc = instr) : LockTyped pc instr :=
  h ▸ code_lockTyped maxSpin pc

inductive Entered (v : Variant S T) : Pc T → Prop
  | push (t : T) : Entered v (.pushLock t)
  | spin (kind : PopKind) : Entered v (.spinLock kind 0)
  | pop (kind : PopKind) (noSpin : v.maxSpin = 0)
      (offered : kind = .untimed ∨ v.timedPop = true) : Entered v (.popLock kind)
  | isEmpty : Entered v .emptyLock

theorem spinFrom_entered {v : Variant S T} {kind : PopKind}
    (offered : kind = .untimed ∨ v.timedPop = true) :
    Entered v (spinFrom v.maxSpin kind 0) := by
  unfold spinFrom
  split
  · exact .spin kind
  · exact .pop kind (by omega) offered

theorem entry_entered {v : Variant S T} {c : Call T} {pc : Pc T}
    (h : c.entry v = some pc) : Entered v pc := by
  cases c with
  | push t =>
      cases h
      exact .push t
  | isEmpty =>
      cases h
      exact .isEmpty
  | pop kind =>
      cases kind with
      | untimed =>
          cases h
          exact spinFrom_entered (.inl rfl)
      | timed ms =>
          simp only [Call.entry] at h
          split at h
          · rename_i hoffered
            cases h
            exact spinFrom_entered (.inr hoffered)
          · cases h

theorem entry_holding {v : Variant S T} {c : Call T} {pc : Pc T}
    (h : c.entry v = some pc) : pc.holding = false := by
  cases entry_entered h <;> rfl

theorem code_sleep {maxSpin : Nat} {pc woken unwinding : Pc T}
    {expired : Option (Pc T)}
    (h : code maxSpin pc = .sleep woken expired unwinding) :
    pc.asleep = true ∧ woken = pc.wake ∧ unwinding = .unwind := by
  cases pc with
  | popAsleep kind => cases kind <;> cases h <;> exact ⟨rfl, rfl, rfl⟩
  | popLock kind => cases kind <;> cases h
  | _ => cases h

theorem wake_holding (pc : Pc T) : pc.wake.holding = pc.holding := by
  cases pc <;> rfl

variable {Tid : Type}

/-- The lock is held once by the thread that is between taking and releasing. -/
def Locked (s : State Tid S T) : Prop :=
  ∃ owner, Token (fun pc : Pc T => pc.holding = true) s.pc owner ∧
    s.lock.hold = PThreadMutex.single owner

theorem Locked.atMostOne {s : State Tid S T} (h : Locked s) :
    AtMostOne (fun pc : Pc T => pc.holding = true) s.pc := by
  obtain ⟨owner, token, -⟩ := h
  exact token.atMostOne

theorem Locked.owner_iff {s : State Tid S T} (h : Locked s) {i : Tid} :
    s.lock.hold.owner = some i ↔ (s.pc i).holding = true := by
  obtain ⟨owner, token, hold⟩ := h
  have hmine := token i
  rw [hold]
  cases owner <;> simpa [PThreadMutex.single, Hold.owner] using hmine.symm

variable [DecidableEq Tid] (v : Variant S T)

inductive StepCases (s s' : State Tid S T) : Action Tid T → Prop
  | call (i : Tid) (c : Call T) (result : Result T) (pc : Pc T)
      (before : s.pc i = .idle result) (entry : c.entry v = some pc)
      (lock : s'.lock = s.lock) (container : s'.container = s.container)
      (pcs : s'.pc = Function.update s.pc i pc) : StepCases s s' (.call i c)
  | acquire (i : Tid) (next : Pc T)
      (code : code v.maxSpin (s.pc i) = .lock next ∨
        ∃ ms expired, code v.maxSpin (s.pc i) = .lockFor ms next expired)
      (free : s.lock.hold = .free)
      (lock : s'.lock = { s.lock with hold := .held i 0 })
      (container : s'.container = s.container)
      (pcs : s'.pc = Function.update s.pc i next) : StepCases s s' (.next i)
  | release (i : Tid) (next : Pc T)
      (code : code v.maxSpin (s.pc i) = .unlock next ∨
        code v.maxSpin (s.pc i) = .wait next)
      (lock : s'.lock = { s.lock with hold := .free })
      (container : s'.container = s.container)
      (pcs : s'.pc = Function.update s.pc i next) : StepCases s s' (.next i)
  | push (i : Tid) (t : T) (next : Pc T)
      (code : code v.maxSpin (s.pc i) = .push t next)
      (pushed : v.container.push s.container t = .ok s'.container)
      (lock : s'.lock = s.lock)
      (pcs : s'.pc = Function.update s.pc i next) : StepCases s s' (.next i)
  | pop (i : Tid) (t : T) (empty : Pc T) (popped : T → Pc T)
      (code : code v.maxSpin (s.pc i) = .pop empty popped)
      (nonempty : v.container.isEmpty s.container = false)
      (taken : v.container.pop s.container = .ok (t, s'.container))
      (lock : s'.lock = s.lock)
      (pcs : s'.pc = Function.update s.pc i (popped t)) :
      StepCases s s' (.next i)
  | miss (i : Tid) (empty : Pc T) (popped : T → Pc T)
      (code : code v.maxSpin (s.pc i) = .pop empty popped)
      (isEmpty : v.container.isEmpty s.container = true)
      (lock : s'.lock = s.lock) (container : s'.container = s.container)
      (pcs : s'.pc = Function.update s.pc i empty) : StepCases s s' (.next i)
  | test (i : Tid) (next : Bool → Pc T)
      (code : code v.maxSpin (s.pc i) = .isEmpty next)
      (lock : s'.lock = s.lock) (container : s'.container = s.container)
      (pcs : s'.pc = Function.update s.pc i
        (next (v.container.isEmpty s.container))) : StepCases s s' (.next i)
  | yield (i : Tid) (next : Pc T)
      (code : code v.maxSpin (s.pc i) = .yield next)
      (lock : s'.lock = s.lock) (container : s'.container = s.container)
      (pcs : s'.pc = Function.update s.pc i next) : StepCases s s' (.next i)
  | expireLock (i : Tid) (ms : UInt32) (next expired : Pc T)
      (code : code v.maxSpin (s.pc i) = .lockFor ms next expired)
      (lock : s'.lock = s.lock) (container : s'.container = s.container)
      (pcs : s'.pc = Function.update s.pc i expired) : StepCases s s' (.expire i)
  | expireWait (i : Tid) (woken expired unwinding : Pc T)
      (code : code v.maxSpin (s.pc i) = .sleep woken (some expired) unwinding)
      (lock : s'.lock = s.lock) (container : s'.container = s.container)
      (pcs : s'.pc = Function.update s.pc i expired) : StepCases s s' (.expire i)
  | wake (i : Tid) (asleep : (s.pc i).asleep = true)
      (lock : s'.lock = s.lock) (container : s'.container = s.container)
      (pcs : s'.pc = Function.update s.pc i (s.pc i).wake) :
      StepCases s s' (.wake i)
  | signal (i : Tid) (woken : List Tid) (next : Pc T)
      (code : code v.maxSpin (s.pc i) = .signal next) (wakes : Wakes s woken)
      (lock : s'.lock = s.lock) (container : s'.container = s.container)
      (pcs : s'.pc = Function.update (wakeAll s.pc woken) i next) :
      StepCases s s' (.signal i woken)
  | cancel (i : Tid) (lock : s'.lock = s.lock)
      (container : s'.container = s.container) (pcs : s'.pc = s.pc) :
      StepCases s s' (.cancel i)
  | cancelAct (i : Tid) (asleep : (s.pc i).asleep = true)
      (pending : s.pending i = true)
      (lock : s'.lock = s.lock) (container : s'.container = s.container)
      (pcs : s'.pc = Function.update s.pc i .unwind) :
      StepCases s s' (.cancelAct i)

variable (build : Build) {v} {s s' : State Tid S T}

theorem advance_cases (hlocked : Locked s) {i : Tid}
    (h : advance build v s i = .ok s') : StepCases v s s' (.next i) := by
  obtain ⟨owner, token, hold⟩ := hlocked
  have hfree : (s.pc i).holding = false → owner ≠ some i := fun hpc e => by
    simp [(token i).mpr e] at hpc
  have hmine : (s.pc i).holding = true → s.lock.hold =
      PThreadMutex.single (some i) := fun hpc => by
    rw [hold, token.owner_eq hpc]
  unfold advance at h
  cases hcode : code v.maxSpin (s.pc i) with
  | none | sleep | signal => simp [hcode] at h
  | lock next =>
      have htyped := LockTyped.of_code hcode
      simp only [hcode, PThreadMutex.lock_single build hold (hfree htyped.1)]
        at h
      cases owner with
      | none =>
          cases h
          exact .acquire i next (.inl hcode) hold rfl rfl rfl
      | some j => cases h
  | lockFor ms next expired =>
      have htyped := LockTyped.of_code hcode
      simp only [hcode, Code.bind_eq_ok] at h
      obtain ⟨result, hresult, h⟩ := h
      obtain ⟨rfl, rfl⟩ :=
        PThreadMutex.lockFor_single build hold (hfree htyped.1) hresult
      cases h
      exact .acquire i next (.inr ⟨ms, expired, hcode⟩) hold rfl rfl rfl
  | unlock next =>
      have htyped := LockTyped.of_code hcode
      simp only [hcode, PThreadMutex.unlock_single build (hmine htyped.1),
        Code.ok_bind] at h
      cases h
      exact .release i next (.inl hcode) rfl rfl rfl
  | wait asleep =>
      have htyped := LockTyped.of_code hcode
      simp only [hcode, PThreadMutex.condRelease_single (hmine htyped.1),
        Code.ok_bind] at h
      cases h
      exact .release i asleep (.inr hcode) rfl rfl rfl
  | push t next =>
      simp only [hcode, Code.bind_eq_ok] at h
      obtain ⟨container, hpush, h⟩ := h
      cases h
      exact .push i t next hcode hpush rfl rfl
  | pop empty popped =>
      simp only [hcode] at h
      cases hempty : v.container.isEmpty s.container with
      | true =>
          rw [hempty, if_pos rfl] at h
          cases h
          exact .miss i empty popped hcode hempty rfl rfl rfl
      | false =>
          rw [hempty, if_neg (by simp)] at h
          simp only [Code.bind_eq_ok] at h
          obtain ⟨⟨t, container⟩, hpop, h⟩ := h
          cases h
          exact .pop i t empty popped hcode hempty hpop rfl rfl
  | isEmpty next =>
      simp only [hcode] at h
      cases h
      exact .test i next hcode rfl rfl rfl
  | yield next =>
      simp only [hcode] at h
      cases h
      exact .yield i next hcode rfl rfl rfl

theorem expire_cases {i : Tid} (h : expire build v s i = .ok s') :
    StepCases v s s' (.expire i) := by
  unfold expire at h
  split at h
  · rename_i ms next expired hcode
    simp only [PThreadMutex.lockFor, mutexTimedlock, if_true,
      Code.bind_eq_ok] at h
    obtain ⟨result, ⟨-, -, status, hstatus, -, -, hresult⟩, h⟩ := h
    cases hstatus
    cases hresult
    cases h
    exact .expireLock i ms next expired hcode rfl rfl rfl
  · rename_i woken expired unwinding hcode
    cases h
    exact .expireWait i woken expired unwinding hcode rfl rfl rfl
  · cases h

theorem wakeAll_holding (pc : Tid → Pc T) (woken : List Tid) (j : Tid) :
    (wakeAll pc woken j).holding = (pc j).holding := by
  unfold wakeAll
  split
  · exact wake_holding (pc j)
  · rfl

theorem asleep_holding {pc : Pc T} (h : pc.asleep = true) :
    pc.holding = false := by
  cases pc <;> first | rfl | cases h

theorem StepCases.locked (hlocked : Locked s) {a : Action Tid T}
    (h : StepCases v s s' a) : Locked s' := by
  obtain ⟨owner, token, hold⟩ := hlocked
  -- A step of one thread that leaves the lock alone.
  have hkeep : ∀ {i pc}, s'.lock = s.lock → s'.pc = Function.update s.pc i pc →
      pc.holding = (s.pc i).holding → Locked s' := by
    intro i pc hlock hpcs hpc
    refine ⟨owner, ?_, by rw [hlock, hold]⟩
    rw [hpcs]
    exact token.keep (by rw [hpc])
  cases h with
  | call i c result pc before entry lock container pcs =>
      exact hkeep lock pcs (by rw [entry_holding entry, before]; rfl)
  | acquire i next code free lock container pcs =>
      have hnext : next.holding = true := by
        rcases code with code | ⟨ms, expired, code⟩
        · exact (LockTyped.of_code code).2
        · exact (LockTyped.of_code code).2.1
      refine ⟨some i, ?_, by rw [lock]; rfl⟩
      cases owner with
      | none =>
          rw [pcs]
          exact token.acquire hnext
      | some j => rw [hold] at free; cases free
  | release i next code lock container pcs =>
      have htyped : (s.pc i).holding = true ∧ next.holding = false := by
        rcases code with code | code <;> exact LockTyped.of_code code
      obtain rfl := token.owner_eq htyped.1
      refine ⟨none, ?_, by rw [lock]; rfl⟩
      rw [pcs]
      exact token.release (by simp [htyped.2])
  | push i t next code pushed lock pcs =>
      have htyped := LockTyped.of_code code
      exact hkeep lock pcs (htyped.2.trans htyped.1.symm)
  | pop i t empty popped code nonempty taken lock pcs =>
      have htyped := LockTyped.of_code code
      exact hkeep lock pcs ((htyped.2.2 t).trans htyped.1.symm)
  | miss i empty popped code isEmpty lock container pcs =>
      have htyped := LockTyped.of_code code
      exact hkeep lock pcs (htyped.2.1.trans htyped.1.symm)
  | test i next code lock container pcs =>
      have htyped := LockTyped.of_code code
      exact hkeep lock pcs ((htyped.2 _).trans htyped.1.symm)
  | yield i next code lock container pcs =>
      have htyped := LockTyped.of_code code
      exact hkeep lock pcs (htyped.2.trans htyped.1.symm)
  | expireLock i ms next expired code lock container pcs =>
      have htyped := LockTyped.of_code code
      exact hkeep lock pcs (htyped.2.2.trans htyped.1.symm)
  | expireWait i woken expired unwinding code lock container pcs =>
      have htyped := LockTyped.of_code code
      exact hkeep lock pcs ((htyped.2.2.1 _ rfl).trans htyped.1.symm)
  | wake i asleep lock container pcs =>
      exact hkeep lock pcs (wake_holding _)
  | signal i woken next code wakes lock container pcs =>
      have htyped := LockTyped.of_code code
      refine ⟨owner, ?_, by rw [lock, hold]⟩
      rw [pcs]
      refine (token.congr fun j => ?_).keep ?_
      · rw [wakeAll_holding]
      · rw [wakeAll_holding, htyped.1, htyped.2]
  | cancel i lock container pcs =>
      exact ⟨owner, by rwa [pcs], by rw [lock, hold]⟩
  | cancelAct i asleep pending lock container pcs =>
      exact hkeep lock pcs (by rw [asleep_holding asleep]; rfl)

/-- The container is changed by a holder of the lock that pushes or pops. -/
theorem StepCases.container_cases {a : Action Tid T} (h : StepCases v s s' a) :
    s'.container = s.container ∨ ∃ i, a = .next i ∧
      (s.pc i).holding = true ∧
      ∀ next, code v.maxSpin (s.pc i) ≠ .unlock next := by
  cases h with
  | push j t next code pushed lock pcs =>
      exact .inr ⟨j, rfl, (LockTyped.of_code code).1, by rw [code]; nofun⟩
  | pop j t empty popped code nonempty taken lock pcs =>
      exact .inr ⟨j, rfl, (LockTyped.of_code code).1, by rw [code]; nofun⟩
  | _ => exact .inl (by assumption)

theorem StepCases.container_eq (hlocked : Locked s) {a : Action Tid T}
    (h : StepCases v s s' a) {j : Tid} (holds : (s.pc j).holding = true)
    (other : a ≠ .next j) : s'.container = s.container := by
  rcases h.container_cases with same | ⟨i, label, holding, -⟩
  · exact same
  · exact absurd (hlocked.atMostOne i j holding holds ▸ label) other

theorem StepCases.container_eq_of_free {j : Tid} (h : StepCases v s s' (.next j))
    (free : (s.pc j).holding = false) : s'.container = s.container := by
  rcases h.container_cases with same | ⟨i, label, holding, -⟩
  · exact same
  · obtain rfl := Action.next.inj label
    rw [free] at holding
    cases holding

/-! ## The flow of control -/

def Instr.Leads : Instr T → Pc T → Prop
  | .none, _ => False
  | .lock next, pc | .unlock next, pc | .push _ next, pc | .wait next, pc
  | .signal next, pc | .yield next, pc => pc = next
  | .lockFor _ next expired, pc => pc = next ∨ pc = expired
  | .pop empty popped, pc => pc = empty ∨ ∃ t, pc = popped t
  | .isEmpty next, pc => ∃ b, pc = next b
  | .sleep woken expired _, pc => pc = woken ∨ expired = some pc

/-- Statements whose effect on control does not depend on the container. -/
def Instr.plain : Instr T → Bool
  | .pop _ _ | .isEmpty _ => false
  | _ => true

inductive Follows : Pc T → Pc T → Prop
  | store (t : T) : Follows (.pushLock t) (.pushStore t)
  | stored (t : T) : Follows (.pushStore t) .pushUnlock
  | pushUnlocked : Follows .pushUnlock .pushSignal
  | pushed : Follows .pushSignal (.idle .pushed)
  | spin (kind : PopKind) (i : Nat) :
      Follows (.spinLock kind i) (.spinTest kind i)
  | spinMiss (kind : PopKind) (i : Nat) :
      Follows (.spinTest kind i) (.spinMiss kind i)
  | spinHit (kind : PopKind) (i : Nat) (t : T) :
      Follows (.spinTest kind i) (.spinHit kind t)
  | spinPopped (kind : PopKind) (t : T) :
      Follows (.spinHit kind t) (.idle (.popped kind (some t)))
  | spinMissed (kind : PopKind) (i : Nat) :
      Follows (.spinMiss kind i) (.spinYield kind i)
  | spinAgain (kind : PopKind) (i : Nat) :
      Follows (.spinYield kind i) (.spinLock kind (i + 1))
  | spinOut (kind : PopKind) (i : Nat) :
      Follows (.spinYield kind i) (.popLock kind)
  | test (kind : PopKind) : Follows (.popLock kind) (.popTest kind false)
  | lockExpired (ms : UInt32) : Follows (.popLock (.timed ms))
      (.idle (.popped (.timed ms) none))
  | miss (kind : PopKind) (again : Bool) :
      Follows (.popTest kind again) (.popWait kind)
  | hit (kind : PopKind) (again : Bool) (t : T) :
      Follows (.popTest kind again) (.popUnlock kind t)
  | wait (kind : PopKind) : Follows (.popWait kind) (.popAsleep kind)
  | woken (kind : PopKind) : Follows (.popAsleep kind) (.popWoken kind)
  | waitExpired (ms : UInt32) :
      Follows (.popAsleep (.timed ms)) (.popExpired ms)
  | retest (kind : PopKind) : Follows (.popWoken kind) (.popTest kind true)
  | giveUp (ms : UInt32) : Follows (.popExpired ms) (.popGiveUp ms)
  | givenUp (ms : UInt32) :
      Follows (.popGiveUp ms) (.idle (.popped (.timed ms) none))
  | popped (kind : PopKind) (t : T) :
      Follows (.popUnlock kind t) (.idle (.popped kind (some t)))
  | testEmpty : Follows .emptyLock .emptyTest
  | empty (empty : Bool) : Follows .emptyTest (.emptyUnlock empty)
  | tested (empty : Bool) :
      Follows (.emptyUnlock empty) (.idle (.tested empty))
  | terminate : Follows .unwind .terminated

theorem leads_cases {maxSpin : Nat} {pc next : Pc T}
    (h : (code maxSpin pc).Leads next) : Follows pc next := by
  cases pc with
  | idle | terminated => cases h
  | spinTest kind i =>
      rcases h with rfl | ⟨t, rfl⟩
      · exact .spinMiss kind i
      · exact .spinHit kind i t
  | popTest kind again =>
      rcases h with rfl | ⟨t, rfl⟩
      · exact .miss kind again
      · exact .hit kind again t
  | emptyTest =>
      obtain ⟨empty, rfl⟩ := h
      exact .empty empty
  | spinYield kind i =>
      obtain rfl : next = spinFrom maxSpin kind (i + 1) := h
      unfold spinFrom
      split
      · exact .spinAgain kind i
      · exact .spinOut kind i
  | popLock kind =>
      cases kind with
      | untimed =>
          cases h
          exact .test .untimed
      | timed ms =>
          rcases h with rfl | rfl
          · exact .test (.timed ms)
          · exact .lockExpired ms
  | popAsleep kind =>
      cases kind with
      | untimed =>
          rcases h with rfl | h
          · exact .woken .untimed
          · cases h
      | timed ms =>
          rcases h with rfl | h
          · exact .woken (.timed ms)
          · cases h
            exact .waitExpired ms
  | _ =>
      cases h
      constructor

def Pc.before : Pc T → Option (Pc T)
  | .popAsleep kind => some (.popWait kind)
  | .popGiveUp ms => some (.popExpired ms)
  | _ => none

theorem leads_before {maxSpin : Nat} {pc next before : Pc T}
    (h : (code maxSpin pc).Leads next) (hbefore : next.before = some before) :
    pc = before := by
  cases leads_cases h with
  | wait | giveUp => exact Option.some.inj hbefore
  | _ => cases hbefore

inductive Flow (v : Variant S T) (s s' : State Tid S T) (a : Action Tid T)
    (j : Tid) : Prop
  | same (label : a ≠ .next j) (noCall : ∀ c, a ≠ .call j c)
      (stays : s'.pc j = s.pc j)
  | entry (c : Call T) (result : Result T) (label : a = .call j c)
      (before : s.pc j = .idle result) (enters : c.entry v = some (s'.pc j))
  | plain (label : a = .next j)
      (plain : (code v.maxSpin (s.pc j)).plain = true)
      (leads : (code v.maxSpin (s.pc j)).Leads (s'.pc j))
  | aside (label : a ≠ .next j) (noCall : ∀ c, a ≠ .call j c)
      (empty : (s.pc j).holding = false)
      (plain : (code v.maxSpin (s.pc j)).plain = true)
      (leads : (code v.maxSpin (s.pc j)).Leads (s'.pc j))
  | pop (t : T) (label : a = .next j) (empty : Pc T) (popped : T → Pc T)
      (code : code v.maxSpin (s.pc j) = .pop empty popped)
      (nonempty : v.container.isEmpty s.container = false)
      (taken : v.container.pop s.container = .ok (t, s'.container))
      (goes : s'.pc j = popped t)
  | miss (label : a = .next j) (empty : Pc T) (popped : T → Pc T)
      (code : code v.maxSpin (s.pc j) = .pop empty popped)
      (isEmpty : v.container.isEmpty s.container = true)
      (goes : s'.pc j = empty)
  | test (label : a = .next j) (next : Bool → Pc T)
      (code : code v.maxSpin (s.pc j) = .isEmpty next)
      (goes : s'.pc j = next (v.container.isEmpty s.container))
  | unwind (label : a = .cancelAct j) (asleep : (s.pc j).asleep = true)
      (leaves : s'.pc j = .unwind)

theorem asleep_code (maxSpin : Nat) {pc : Pc T} (h : pc.asleep = true) :
    ∃ expired, code maxSpin pc = .sleep pc.wake expired .unwind := by
  cases pc with
  | popAsleep kind => cases kind <;> exact ⟨_, rfl⟩
  | _ => cases h

private theorem flow_update {a : Action Tid T} {i : Tid} {pc : Pc T}
    (pcs : s'.pc = Function.update s.pc i pc)
    (others : ∀ j ≠ i, a ≠ .next j ∧ ∀ c, a ≠ .call j c)
    (mine : s'.pc i = pc → Flow v s s' a i) (j : Tid) : Flow v s s' a j := by
  by_cases hj : j = i
  · subst hj
    exact mine (by rw [pcs, Function.update_self])
  · obtain ⟨label, noCall⟩ := others j hj
    exact .same label noCall (by rw [pcs, Function.update_of_ne hj])

private theorem flow_next {i : Tid} {next : Pc T}
    (pcs : s'.pc = Function.update s.pc i next)
    (mine : s'.pc i = next → Flow v s s' (.next i) i) (j : Tid) :
    Flow v s s' (.next i) j := by
  have hothers : ∀ j ≠ i, (.next i : Action Tid T) ≠ .next j ∧
      ∀ c, (.next i : Action Tid T) ≠ .call j c := by
    intro j hj
    simp [hj.symm]
  exact flow_update pcs hothers mine j

theorem StepCases.flow {a : Action Tid T} (h : StepCases v s s' a) (j : Tid) :
    Flow v s s' a j := by
  cases h with
  | call i c result pc before entry lock container pcs =>
      have hothers : ∀ j ≠ i, (.call i c : Action Tid T) ≠ .next j ∧
          ∀ c', (.call i c : Action Tid T) ≠ .call j c' := by
        intro j hj
        simp [hj.symm]
      refine flow_update pcs hothers (fun goes => ?_) j
      exact .entry c result rfl before (goes ▸ entry)
  | acquire i next code free lock container pcs =>
      refine flow_next pcs (fun goes => ?_) j
      rcases code with code | ⟨ms, expired, code⟩
      · exact .plain rfl (by rw [code]; rfl) (by rw [code]; exact goes)
      · exact .plain rfl (by rw [code]; rfl) (by rw [code]; exact .inl goes)
  | release i next code lock container pcs =>
      refine flow_next pcs (fun goes => ?_) j
      rcases code with code | code
      · exact .plain rfl (by rw [code]; rfl) (by rw [code]; exact goes)
      · exact .plain rfl (by rw [code]; rfl) (by rw [code]; exact goes)
  | push i t next code pushed lock pcs =>
      refine flow_next pcs (fun goes => ?_) j
      exact .plain rfl (by rw [code]; rfl) (by rw [code]; exact goes)
  | pop i t empty popped code nonempty taken lock pcs =>
      exact flow_next pcs (.pop t rfl empty popped code nonempty taken) j
  | miss i empty popped code isEmpty lock container pcs =>
      exact flow_next pcs (.miss rfl empty popped code isEmpty) j
  | test i next code lock container pcs =>
      exact flow_next pcs (.test rfl next code) j
  | yield i next code lock container pcs =>
      refine flow_next pcs (fun goes => ?_) j
      exact .plain rfl (by rw [code]; rfl) (by rw [code]; exact goes)
  | expireLock i ms next expired code lock container pcs =>
      refine flow_update pcs (by simp) (fun goes => ?_) j
      exact .aside nofun nofun (LockTyped.of_code code).1 (by rw [code]; rfl)
        (by rw [code]; exact .inr goes)
  | expireWait i woken expired unwinding code lock container pcs =>
      refine flow_update pcs (by simp) (fun goes => ?_) j
      exact .aside nofun nofun (LockTyped.of_code code).1 (by rw [code]; rfl)
        (by rw [code]; exact .inr (congrArg some goes.symm))
  | wake i asleep lock container pcs =>
      obtain ⟨expired, hcode⟩ := asleep_code v.maxSpin asleep
      refine flow_update pcs (by simp) (fun goes => ?_) j
      exact .aside nofun nofun (asleep_holding asleep) (by rw [hcode]; rfl)
        (by rw [hcode]; exact .inl goes)
  | signal i woken next code wakes lock container pcs =>
      by_cases hj : j = i
      · subst hj
        refine .aside nofun nofun (LockTyped.of_code code).1 (by rw [code]; rfl) ?_
        rw [code, pcs, Function.update_self]
        rfl
      · have hpc : s'.pc j = wakeAll s.pc woken j := by
          rw [pcs, Function.update_of_ne hj]
        by_cases hmem : j ∈ woken
        · have hasleep := wakes.1 j hmem
          obtain ⟨expired, hcode⟩ := asleep_code v.maxSpin hasleep
          refine .aside nofun nofun (asleep_holding hasleep) (by rw [hcode]; rfl) ?_
          rw [hcode, hpc, wakeAll, if_pos hmem]
          exact .inl rfl
        · exact .same nofun nofun (by rw [hpc, wakeAll, if_neg hmem])
  | cancel i lock container pcs => exact .same nofun nofun (by rw [pcs])
  | cancelAct i asleep pending lock container pcs =>
      exact flow_update pcs (by simp) (.unwind rfl asleep) j

omit [DecidableEq Tid] in
theorem Flow.leads {a : Action Tid T} {j : Tid} (h : Flow v s s' a j) :
    s'.pc j = s.pc j ∨ (∃ c : Call T, ∃ result, s.pc j = .idle result ∧
      c.entry v = some (s'.pc j)) ∨
    (code v.maxSpin (s.pc j)).Leads (s'.pc j) ∨
    (a = .cancelAct j ∧ (s.pc j).asleep = true ∧ s'.pc j = .unwind) := by
  cases h with
  | same label noCall stays => exact .inl stays
  | entry c result label before enters =>
      exact .inr (.inl ⟨c, result, before, enters⟩)
  | plain label plain leads => exact .inr (.inr (.inl leads))
  | aside label noCall empty plain leads => exact .inr (.inr (.inl leads))
  | pop t label empty popped code nonempty taken goes =>
      rw [code]
      exact .inr (.inr (.inl (.inr ⟨t, goes⟩)))
  | miss label empty popped code isEmpty goes =>
      rw [code]
      exact .inr (.inr (.inl (.inl goes)))
  | test label next code goes =>
      rw [code]
      exact .inr (.inr (.inl ⟨_, goes⟩))
  | unwind label asleep leaves =>
      exact .inr (.inr (.inr ⟨label, asleep, leaves⟩))

omit [DecidableEq Tid] in
theorem Flow.leads_of_next {j : Tid} (h : Flow v s s' (.next j) j) :
    (code v.maxSpin (s.pc j)).Leads (s'.pc j) := by
  cases h with
  | same label noCall stays => exact absurd rfl label
  | entry c result label before enters => cases label
  | plain label plain leads => exact leads
  | aside label noCall empty plain leads => exact absurd rfl label
  | pop t label empty popped code nonempty taken goes =>
      rw [code]
      exact .inr ⟨t, goes⟩
  | miss label empty popped code isEmpty goes =>
      rw [code]
      exact .inl goes
  | test label next code goes =>
      rw [code]
      exact ⟨_, goes⟩
  | unwind label asleep leaves => cases label

/-! ## The steps of the system -/

variable [Fintype Tid]

theorem step_cases (hlocked : Locked s) {a : Action Tid T}
    (h : (system build v Tid).step s a s') : StepCases v s s' a := by
  change exec build v s a = .ok s' at h
  cases a with
  | next i => exact advance_cases build hlocked h
  | expire i => exact expire_cases build h
  | call i c =>
      cases hpc : s.pc i <;> cases hentry : c.entry v <;>
        simp only [exec, hpc, hentry] at h <;> cases h
      exact .call i c _ _ hpc hentry rfl rfl rfl
  | wake i =>
      simp only [exec] at h
      split at h
      · rename_i woken expired unwinding hcode
        obtain ⟨hasleep, rfl, -⟩ := code_sleep hcode
        cases h
        exact .wake i hasleep rfl rfl rfl
      · cases h
  | signal i woken =>
      simp only [exec] at h
      split at h
      · rename_i next hcode
        split at h
        · rename_i hwakes
          cases h
          exact .signal i woken next hcode hwakes rfl rfl rfl
        · cases h
      · cases h
  | cancel i =>
      cases h
      exact .cancel i rfl rfl rfl
  | cancelAct i =>
      simp only [exec] at h
      split at h
      · rename_i woken expired unwinding hcode
        split at h
        · rename_i hpending
          obtain ⟨hasleep, -, rfl⟩ := code_sleep hcode
          cases h
          exact .cancelAct i hasleep hpending rfl rfl rfl
        · cases h
      · cases h

theorem locked_inductive : (system build v Tid).Inductive Locked where
  init := by
    rintro s rfl
    exact ⟨none, Token.none_of (fun _ => by simp [initial, Pc.holding]), rfl⟩
  step := fun hlocked hstep => (step_cases build hlocked hstep).locked hlocked

end Iocore.Queue
