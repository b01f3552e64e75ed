import Iocore.InList.Family
import Iocore.Queue.Sequence

/-!
# Queues that share their elements

The elements of an `InQueue` are linked through fields of their own, so an
element that leaves one queue may be pushed on another, and all queues of a
program work on one heap.  Each queue has a lock and a condition, and a thread
is in one call at a time.

A thread pushes only what belongs to it.  Who owns an element is no variable of
the code: pushing gives the element away, and what `Pop` returns belongs to the
caller.
-/

namespace Iocore.Queue

open Foundation Foundation.System Pthread

variable {Q Tid T : Type}

structure Network (Q Tid T : Type) where
  heap : Heap T
  lists : Q → InList T
  locks : Q → Mutex Tid
  pcs : Q → Tid → Pc T
  pending : Tid → Bool

namespace Network

def queue (s : Network Q Tid T) (q : Q) : State Tid (Heap T × InList T) T where
  lock := s.locks q
  container := (s.heap, s.lists q)
  pc := s.pcs q
  pending := s.pending

@[simp] theorem queue_pc (s : Network Q Tid T) (q : Q) :
    (s.queue q).pc = s.pcs q := rfl

def initial (build : Build) (Q Tid T : Type) [DecidableEq T] :
    Network Q Tid T where
  heap := Heap.initial T
  lists _ := InList.initial T
  locks _ := PThreadMutex.construct build true
  pcs _ _ := .idle .noCall
  pending _ := false

/-- A thread calls one queue at a time. -/
def Admits (s : Network Q Tid T) : Action Tid T → Prop
  | .call i _ => ∀ q, (s.pcs q i).isIdle = true
  | _ => True

instance [Fintype Q] (s : Network Q Tid T) (a : Action Tid T) :
    Decidable (s.Admits a) :=
  match a with
  | .call i _ => inferInstanceAs (Decidable (∀ q, (s.pcs q i).isIdle = true))
  | .next _ | .expire _ | .wake _ | .signal _ _ | .cancel _ | .cancelAct _ =>
      .isTrue trivial

variable [DecidableEq Q]

def put (s : Network Q Tid T) (q : Q) (s' : State Tid (Heap T × InList T) T) :
    Network Q Tid T where
  heap := s'.container.1
  lists := Function.update s.lists q s'.container.2
  locks := Function.update s.locks q s'.lock
  pcs := Function.update s.pcs q s'.pc
  pending := s'.pending

@[simp] theorem put_queue_self (s : Network Q Tid T) (q : Q)
    (s' : State Tid (Heap T × InList T) T) : (s.put q s').queue q = s' := by
  simp [queue, put]

theorem put_queue_of_ne (s : Network Q Tid T) {q q' : Q} (h : q' ≠ q)
    (s' : State Tid (Heap T × InList T) T) :
    (s.put q s').queue q' =
      { lock := s.locks q', container := (s'.container.1, s.lists q'),
        pc := s.pcs q', pending := s'.pending } := by
  simp [queue, put, Function.update_of_ne h]

variable [Fintype Q] [DecidableEq Tid] [Fintype Tid] [DecidableEq T]
  (build : Build)

def exec (s : Network Q Tid T) (label : Q × Action Tid T) :
    Code (Network Q Tid T) :=
  if s.Admits label.2 then do
    let s' ← Queue.exec build (inQueue build T) (s.queue label.1) label.2
    return s.put label.1 s'
  else .error .blocked

end Network

/-! ## Who owns the elements -/

structure Owned (Q Tid T : Type) where
  network : Network Q Tid T
  owner : T → Option Tid

/--
Who owns the elements after a step of the calls on a queue from `s` to `s'`.  A
call that returns an element gives it to the thread that made the call.
-/
def ownerAfter [DecidableEq T] {S : Type} (owner : T → Option Tid)
    (s s' : State Tid S T) : Action Tid T → T → Option Tid
  | .call _ (.push t) => Function.update owner t none
  | .next i | .expire i =>
      match returns (s.pc i) (s'.pc i) with
      | some t => Function.update owner t (some i)
      | none => owner
  | _ => owner

variable [Fintype Q] [DecidableEq Q] [DecidableEq Tid] [Fintype Tid]
  [DecidableEq T] (build : Build)

def Owned.exec (s : Owned Q Tid T) (label : Q × Action Tid T) :
    Code (Owned Q Tid T) := do
  let network ← s.network.exec build label
  return ⟨network, ownerAfter s.owner (s.network.queue label.1)
    (network.queue label.1) label.2⟩

def network (owner : T → Option Tid) :
    System (Owned Q Tid T) (Q × Action Tid T) :=
  .ofFunction (fun s => s = ⟨Network.initial build Q Tid T, owner⟩)
    (Owned.exec build)

def Owns (s : Owned Q Tid T) (label : Q × Action Tid T) : Prop :=
  ∀ i t, label.2 = .call i (.push t) → s.owner t = some i

/-! ## Where the elements are -/

def Pc.carried : Pc T → Option T
  | .pushLock t | .pushStore t | .spinHit _ t | .popUnlock _ t => some t
  | _ => none

def once (t : T) (x : Option T) : Nat := if x = some t then 1 else 0

@[simp] theorem once_none (t : T) : once t none = 0 := rfl

theorem count_singleton_eq_once (t t' : T) : [t'].count t = once t (some t') := by
  simp [once, List.count_singleton]

def carries (t : T) (pc : Pc T) : Nat := once t pc.carried

/--
In how many places an element is, if the queues hold `seqs`: with an owner, in
a call, or in a queue.
-/
def Owned.places (s : Owned Q Tid T) (seqs : Q → List T) (t : T) : Nat :=
  (s.owner t).isSome.toNat + total (total (carries t)) s.network.pcs +
    total (List.count t) seqs

def stock (t : T) (pcs : Tid → Pc T) (xs : List T) : Nat :=
  total (carries t) pcs + xs.count t

def CarriedTyped (pc : Pc T) : Instr T → Prop
  | .none => True
  | .lock next | .signal next | .yield next =>
      next.carried = pc.carried ∧ next.returned = none
  | .lockFor _ next expired =>
      next.carried = pc.carried ∧ expired.carried = pc.carried ∧
        next.returned = none ∧ expired.returned = none
  | .unlock next => next.returned = pc.carried ∧ next.carried = none
  | .wait next =>
      pc.carried = none ∧ next.returned = none ∧ next.carried = none
  | .push t next =>
      pc.carried = some t ∧ next.returned = none ∧ next.carried = none
  | .pop empty popped =>
      pc.carried = none ∧ (empty.returned = none ∧ empty.carried = none) ∧
        ∀ t, (popped t).returned = none ∧ (popped t).carried = some t
  | .isEmpty next =>
      pc.carried = none ∧
        ∀ b, (next b).returned = none ∧ (next b).carried = none
  | .sleep woken expired unwinding =>
      pc.carried = none ∧ woken.carried = none ∧ unwinding.carried = none ∧
        ∀ next, expired = some next →
          next.returned = none ∧ next.carried = none

omit [DecidableEq T] in
theorem CarriedTyped.of_code {maxSpin : Nat} {pc : Pc T} {instr : Instr T}
    (h : code maxSpin pc = instr) : CarriedTyped pc instr := by
  subst h
  cases pc with
  | spinYield kind i =>
      change (spinFrom maxSpin kind (i + 1)).carried = none ∧ _
      unfold spinFrom
      split <;> exact ⟨rfl, rfl⟩
  | popLock kind | popAsleep kind =>
      cases kind <;> simp [code, CarriedTyped, Pc.carried, Pc.returned]
  | _ => simp [code, CarriedTyped, Pc.carried, Pc.returned]

omit [DecidableEq T] in
theorem returns_eq_none {pc next : Pc T} (h : next.returned = none) :
    returns pc next = none := by
  unfold returns
  split
  · rfl
  · exact h

omit [DecidableEq T] in
theorem returns_of_code {maxSpin : Nat} {pc next : Pc T}
    (h : code maxSpin pc ≠ .none) : returns pc next = next.returned := by
  cases pc with
  | idle result => exact absurd rfl h
  | _ => rfl

def Call.element : Call T → Option T
  | .push t => some t
  | .pop _ | .isEmpty => none

def entrusted (t : T) : Action Tid T → Nat
  | .call _ c => once t c.element
  | _ => 0

def handedBack (t : T) (pcs pcs' : Tid → Pc T) : Action Tid T → Nat
  | .next i | .expire i => once t (returns (pcs i) (pcs' i))
  | _ => 0

omit [DecidableEq T] in
theorem entry_carried {S : Type} {v : Variant S T} {c : Call T} {pc : Pc T}
    (h : c.entry v = some pc) : pc.carried = c.element := by
  cases c with
  | push t | isEmpty =>
      cases h
      rfl
  | pop kind =>
      have hspin : (spinFrom v.maxSpin kind 0 : Pc T).carried = none := by
        unfold spinFrom
        split <;> rfl
      cases kind with
      | untimed => exact Option.some.inj h ▸ hspin
      | timed ms =>
          simp only [Call.entry] at h
          split at h
          · exact Option.some.inj h ▸ hspin
          · cases h

theorem carries_wakeAll (t : T) (pcs : Tid → Pc T) (woken : List Tid) :
    total (carries t) (wakeAll pcs woken) = total (carries t) pcs := by
  refine Finset.sum_congr rfl fun j _ => ?_
  unfold wakeAll
  split
  · cases pcs j <;> rfl
  · rfl

theorem StepCases.stock {S : Type} {v : Variant S T}
    {s s' : State Tid (List T) T} {a : Action Tid T}
    (h : StepCases v.sequence s s' a) (t : T) :
    Queue.stock t s'.pc s'.container + handedBack t s.pc s'.pc a =
      Queue.stock t s.pc s.container + entrusted t a := by
  -- A step of one thread that leaves the container alone.
  have hmove : ∀ {i pc}, s'.container = s.container →
      s'.pc = Function.update s.pc i pc →
      carries t pc + handedBack t s.pc s'.pc a =
        carries t (s.pc i) + entrusted t a →
      Queue.stock t s'.pc s'.container + handedBack t s.pc s'.pc a =
        Queue.stock t s.pc s.container + entrusted t a := by
    intro i pc hcontainer hpcs hpc
    have htotal := total_update (carries t) s.pc i pc
    rw [← hpcs] at htotal
    rw [Queue.stock, Queue.stock, hcontainer]
    omega
  -- What a thread that executes a statement gets back.
  have hback : ∀ {i pc}, s'.pc = Function.update s.pc i pc →
      returns (s.pc i) (s'.pc i) = returns (s.pc i) pc := by
    intro i pc hpcs
    rw [hpcs, Function.update_self]
  have hquiet : ∀ {i pc}, s'.pc = Function.update s.pc i pc →
      pc.returned = none → once t (returns (s.pc i) (s'.pc i)) = 0 := by
    intro i pc hpcs hpc
    rw [hback hpcs, returns_eq_none hpc, once_none]
  cases h with
  | call i c result pc before entry lock container pcs =>
      refine hmove container pcs ?_
      rw [carries, carries, entry_carried entry, before, Nat.add_comm]
      rfl
  | acquire i next code free lock container pcs =>
      have htyped : next.carried = (s.pc i).carried ∧ next.returned = none := by
        rcases code with code | ⟨ms, expired, code⟩
        · exact CarriedTyped.of_code code
        · have htyped := CarriedTyped.of_code code
          exact ⟨htyped.1, htyped.2.2.1⟩
      refine hmove container pcs ?_
      rw [carries, carries, handedBack, hquiet pcs htyped.2, htyped.1]
      rfl
  | release i next code lock container pcs =>
      have htyped : next.returned = (s.pc i).carried ∧ next.carried = none := by
        rcases code with code | code
        · exact CarriedTyped.of_code code
        · have htyped := CarriedTyped.of_code code
          exact ⟨htyped.2.1.trans htyped.1.symm, htyped.2.2⟩
      have hreturns : returns (s.pc i) next = next.returned := by
        rcases code with code | code <;>
          exact returns_of_code (by rw [code]; nofun)
      refine hmove container pcs ?_
      rw [carries, carries, handedBack, hback pcs, hreturns, htyped.1, htyped.2,
        Nat.add_comm]
      rfl
  | push i t' next code pushed lock pcs =>
      obtain ⟨hbefore, hreturned, hafter⟩ := CarriedTyped.of_code code
      have hcontainer : s'.container = s.container ++ [t'] :=
        (Except.ok.inj pushed).symm
      have htotal := total_update (carries t) s.pc i next
      rw [carries, carries, hbefore, hafter, once_none, ← pcs] at htotal
      rw [Queue.stock, Queue.stock, hcontainer, List.count_append,
        count_singleton_eq_once]
      simp only [handedBack, entrusted, hquiet pcs hreturned]
      omega
  | pop i t' empty popped code nonempty taken lock pcs =>
      obtain ⟨hbefore, -, hpopped⟩ := CarriedTyped.of_code code
      obtain ⟨hreturned, hafter⟩ := hpopped t'
      have hcontainer : s.container = t' :: s'.container := by
        cases hxs : s.container with
        | nil =>
            rw [hxs] at nonempty
            cases nonempty
        | cons x xs =>
            rw [hxs] at taken
            cases taken
            rfl
      have htotal := total_update (carries t) s.pc i (popped t')
      rw [carries, carries, hbefore, hafter, once_none, ← pcs] at htotal
      rw [Queue.stock, Queue.stock, hcontainer, ← List.singleton_append,
        List.count_append, count_singleton_eq_once]
      simp only [handedBack, entrusted, hquiet pcs hreturned]
      omega
  | miss i empty popped code isEmpty lock container pcs =>
      obtain ⟨hbefore, ⟨hreturned, hempty⟩, -⟩ := CarriedTyped.of_code code
      refine hmove container pcs ?_
      rw [carries, carries, handedBack, hquiet pcs hreturned, hbefore, hempty]
      rfl
  | test i next code lock container pcs =>
      obtain ⟨hbefore, hnext⟩ := CarriedTyped.of_code code
      obtain ⟨hreturned, hafter⟩ := hnext (v.sequence.container.isEmpty s.container)
      refine hmove container pcs ?_
      rw [carries, carries, handedBack, hquiet pcs hreturned, hbefore, hafter]
      rfl
  | yield i next code lock container pcs =>
      obtain ⟨hcarried, hreturned⟩ := CarriedTyped.of_code code
      refine hmove container pcs ?_
      rw [carries, carries, handedBack, hquiet pcs hreturned, hcarried]
      rfl
  | expireLock i ms next expired code lock container pcs =>
      obtain ⟨-, hcarried, -, hreturned⟩ := CarriedTyped.of_code code
      refine hmove container pcs ?_
      rw [carries, carries, handedBack, hquiet pcs hreturned, hcarried]
      rfl
  | expireWait i woken expired unwinding code lock container pcs =>
      obtain ⟨hbefore, -, -, hexpired⟩ := CarriedTyped.of_code code
      obtain ⟨hreturned, hafter⟩ := hexpired _ rfl
      refine hmove container pcs ?_
      rw [carries, carries, handedBack, hquiet pcs hreturned, hbefore, hafter]
      rfl
  | wake i asleep lock container pcs =>
      obtain ⟨expired, code⟩ := asleep_code v.maxSpin asleep
      obtain ⟨hbefore, hafter, -, -⟩ := CarriedTyped.of_code code
      refine hmove container pcs ?_
      rw [carries, carries, hbefore, hafter]
      rfl
  | signal i woken next code wakes lock container pcs =>
      obtain ⟨hcarried, -⟩ := CarriedTyped.of_code code
      have htotal := total_update (carries t) (wakeAll s.pc woken) i next
      have hsame : carries t next = carries t (wakeAll s.pc woken i) := by
        have hwake : (wakeAll s.pc woken i).carried = (s.pc i).carried := by
          unfold wakeAll
          split
          · cases s.pc i <;> rfl
          · rfl
        rw [carries, carries, hcarried, hwake]
      rw [carries_wakeAll, ← pcs] at htotal
      rw [Queue.stock, Queue.stock, container]
      simp only [handedBack, entrusted]
      omega
  | cancel i lock container pcs =>
      rw [Queue.stock, Queue.stock, container, pcs]
      rfl
  | cancelAct i asleep pending lock container pcs =>
      obtain ⟨expired, code⟩ := asleep_code v.maxSpin asleep
      obtain ⟨hbefore, -, hafter, -⟩ := CarriedTyped.of_code code
      refine hmove container pcs ?_
      rw [carries, carries, hbefore, hafter]
      rfl

end Iocore.Queue
