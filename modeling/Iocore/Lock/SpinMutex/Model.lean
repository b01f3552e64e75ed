import Iocore.Defs
import Iocore.Foundation.Atomic
import Iocore.Foundation.System
import Iocore.Foundation.Threads

/-!
# The spin mutex

`SpinMutex` keeps a lock word that is changed by compare-and-swap and, beside
it, the identity of the owner, which is written by plain stores: after the lock
word on acquisition and before it on release.  The constructor sets the lock
word only, so `owner_` starts with an arbitrary value.

The state below also records which threads have won the compare-and-swap of
`TryLock` and not yet the one of `Unlock`.  A thread calls `Unlock` only then.
The spin time statistics that `Lock` updates at its end are left out.
-/

namespace Iocore.SpinMutex

open Foundation Foundation.System

abbrev PthreadT := UInt64

structure ThreadIds (Tid : Type) where
  self : Tid → PthreadT
  injective : Function.Injective self
  nonzero : ∀ i, self i ≠ 0

def OPEN : UInt32 := 0x01

def CLOSED : UInt32 := 0x11

theorem open_ne_closed : OPEN ≠ CLOSED := by decide

inductive Call where
  | tryLock
  | lock
  | unlock
  | isOwner
  | is (value : UInt32)
  deriving DecidableEq, Repr

/--
Where a thread is.  `spin` tells `TryLock` inside the loop of `Lock` from a
`TryLock` of its own; between calls `result` is what the last one returned.
-/
inductive Pc where
  | idle (result : Option Bool)
  | is (value : UInt32)
  | isOwnerClosed
  | isOwnerRead
  | lockOpen
  | lockClosed
  | lockRead
  | tryCas (spin : Bool)
  | tryAssert (spin : Bool)
  | tryOwner (spin : Bool)
  | unlockClosed
  | unlockRead
  | unlockOwner
  | unlockCas
  deriving DecidableEq, Repr

structure State (Tid : Type) where
  mutex : UInt32
  owner : PthreadT
  pc : Tid → Pc
  won : Tid → Bool

inductive Action (Tid : Type) where
  | call (i : Tid) (c : Call)
  | next (i : Tid)
  deriving DecidableEq, Repr

def Action.tid {Tid : Type} : Action Tid → Tid
  | .call i _ => i
  | .next i => i

def initial (Tid : Type) (owner : PthreadT) : State Tid :=
  ⟨OPEN, owner, fun _ => .idle none, fun _ => false⟩

variable {Tid : Type} [DecidableEq Tid]

def State.goto (s : State Tid) (i : Tid) (pc : Pc) : State Tid :=
  { s with pc := Function.update s.pc i pc }

/-- `Is`: a compare-and-swap of a value with itself. -/
def State.is (s : State Tid) (value : UInt32) : Bool :=
  (syncBoolCompareAndSwap s.mutex value value).1

@[simp] theorem State.goto_pc_self (s : State Tid) (i : Tid) (pc : Pc) :
    (s.goto i pc).pc i = pc := Function.update_self ..

@[simp] theorem State.goto_is (s : State Tid) (i : Tid) (pc : Pc)
    (value : UInt32) : (s.goto i pc).is value = s.is value := rfl

@[simp] theorem State.goto_owner (s : State Tid) (i : Tid) (pc : Pc) :
    (s.goto i pc).owner = s.owner := rfl

variable (build : Build) (ids : ThreadIds Tid)

def advance (s : State Tid) (i : Tid) : Code (State Tid) :=
  match s.pc i with
  | .idle _ => .error .blocked
  | .is value => .ok (s.goto i (.idle (some (s.is value))))
  | .isOwnerClosed =>
      if s.is CLOSED then .ok (s.goto i .isOwnerRead)
      else .ok (s.goto i (.idle (some false)))
  | .isOwnerRead =>
      .ok (s.goto i (.idle (some (decide (s.owner = ids.self i)))))
  -- INVARIANT(Is(OPEN) || !IsOwner())
  | .lockOpen =>
      if s.is OPEN then .ok (s.goto i (.tryCas true))
      else .ok (s.goto i .lockClosed)
  | .lockClosed =>
      if s.is CLOSED then .ok (s.goto i .lockRead)
      else .ok (s.goto i (.tryCas true))
  | .lockRead => do
      invariant (s.owner ≠ ids.self i)
      return s.goto i (.tryCas true)
  | .tryCas spin =>
      let (status, mutex) := syncBoolCompareAndSwap s.mutex OPEN CLOSED
      if status then
        let pc := if build.debugBuild then .tryAssert spin else .tryOwner spin
        .ok ({ s with mutex := mutex, won := Function.update s.won i true }.goto
          i pc)
      else if spin then .ok (s.goto i (.tryCas true))
      else .ok (s.goto i (.idle (some false)))
  | .tryAssert spin => do
      build.assert (s.is CLOSED)
      return s.goto i (.tryOwner spin)
  | .tryOwner spin =>
      let result := if spin then none else some true
      .ok ({ s with owner := ids.self i }.goto i (.idle result))
  -- ASSERT(IsOwner())
  | .unlockClosed =>
      if s.is CLOSED then .ok (s.goto i .unlockRead)
      else do
        build.assert false
        return s.goto i .unlockOwner
  | .unlockRead => do
      build.assert (s.owner = ids.self i)
      return s.goto i .unlockOwner
  | .unlockOwner => .ok ({ s with owner := 0 }.goto i .unlockCas)
  | .unlockCas => do
      let (status, mutex) := syncBoolCompareAndSwap s.mutex CLOSED OPEN
      build.assert status
      return { s with
        mutex := mutex
        won := Function.update s.won i (s.won i && !status) }.goto i
          (.idle none)

def Call.entry : Call → Pc
  | .tryLock => .tryCas false
  | .lock => .lockOpen
  | .unlock => if build.debugBuild then .unlockClosed else .unlockOwner
  | .isOwner => .isOwnerClosed
  | .is value => .is value

def exec (s : State Tid) : Action Tid → Code (State Tid)
  | .call i c =>
      match s.pc i with
      | .idle _ =>
          if c = .unlock ∧ s.won i = false then .error .blocked
          else .ok (s.goto i (c.entry build))
      | _ => .error .blocked
  | .next i => advance build ids s i

def system (owner : PthreadT) : System (State Tid) (Action Tid) :=
  .ofFunction (fun s => s = initial Tid owner) (exec build ids)

/-! ## What a step does -/

def Pc.inRegion : Pc → Bool
  | .tryAssert _ | .tryOwner _ | .unlockClosed | .unlockRead | .unlockOwner
  | .unlockCas => true
  | _ => false

/-- Outside the two windows in which `owner_` lags behind the lock word. -/
def Pc.settled : Pc → Bool
  | .tryAssert _ | .tryOwner _ | .unlockCas => false
  | _ => true

def Pc.readsOwner : Pc → Bool
  | .isOwnerRead | .lockRead | .unlockRead => true
  | _ => false

omit [DecidableEq Tid] in
theorem State.is_eq_true {s : State Tid} {value : UInt32} :
    s.is value = true ↔ s.mutex = value := by
  by_cases h : s.mutex = value <;> simp [State.is, syncBoolCompareAndSwap, h]

inductive StepCases (s : State Tid) (i : Tid) (s' : State Tid) : Prop
  | move (pc : Pc) (pcs : s'.pc = Function.update s.pc i pc)
      (mutex : s'.mutex = s.mutex) (owner : s'.owner = s.owner)
      (won : s'.won = s.won)
      (region : pc.inRegion = true → s.won i = true ∨
        (s.pc i).inRegion = true)
      (settled : pc.settled = true → (s.pc i).settled = true)
      (reads : pc.readsOwner = true → s.mutex = CLOSED)
      (noCas : pc ≠ .unlockCas)
  | win (pc : Pc) (pcs : s'.pc = Function.update s.pc i pc)
      (mutex : s'.mutex = CLOSED) (owner : s'.owner = s.owner)
      (won : s'.won = Function.update s.won i true)
      (opened : s.mutex = OPEN) (settled : pc.settled = false)
      (noRead : pc.readsOwner = false) (noCas : pc ≠ .unlockCas)
  | sign (result : Option Bool)
      (pcs : s'.pc = Function.update s.pc i (.idle result))
      (mutex : s'.mutex = s.mutex) (owner : s'.owner = ids.self i)
      (won : s'.won = s.won) (before : (s.pc i).inRegion = true)
  | clear (pcs : s'.pc = Function.update s.pc i .unlockCas)
      (mutex : s'.mutex = s.mutex) (owner : s'.owner = 0)
      (won : s'.won = s.won) (before : (s.pc i).inRegion = true)
  | release (pcs : s'.pc = Function.update s.pc i (.idle none))
      (mutex : s'.mutex = OPEN) (owner : s'.owner = s.owner)
      (won : s'.won = Function.update s.won i false)
      (before : s.pc i = .unlockCas) (closed : s.mutex = CLOSED)
  | lost (before : s.pc i = .unlockCas) (opened : s.mutex ≠ CLOSED)

theorem advance_cases {s s' : State Tid} {i : Tid}
    (h : advance build ids s i = .ok s') : StepCases ids s i s' := by
  unfold advance at h
  cases hpc : s.pc i with
  | idle result => simp [hpc] at h
  | is value =>
      simp only [hpc] at h
      cases h
      exact .move _ rfl rfl rfl rfl nofun (by simp [hpc, Pc.settled]) nofun
        nofun
  | isOwnerClosed =>
      simp only [hpc] at h
      split at h <;> cases h
      · rename_i hclosed
        exact .move _ rfl rfl rfl rfl nofun (by simp [hpc, Pc.settled])
          (fun _ => State.is_eq_true.mp hclosed) nofun
      · exact .move _ rfl rfl rfl rfl nofun (by simp [hpc, Pc.settled]) nofun
          nofun
  | isOwnerRead =>
      simp only [hpc] at h
      cases h
      exact .move _ rfl rfl rfl rfl nofun (by simp [hpc, Pc.settled]) nofun
        nofun
  | lockOpen =>
      simp only [hpc] at h
      split at h <;> cases h <;>
        exact .move _ rfl rfl rfl rfl nofun (by simp [hpc, Pc.settled]) nofun
          nofun
  | lockClosed =>
      simp only [hpc] at h
      split at h <;> cases h
      · rename_i hclosed
        exact .move _ rfl rfl rfl rfl nofun (by simp [hpc, Pc.settled])
          (fun _ => State.is_eq_true.mp hclosed) nofun
      · exact .move _ rfl rfl rfl rfl nofun (by simp [hpc, Pc.settled]) nofun
          nofun
  | lockRead =>
      simp only [hpc, Code.bind_eq_ok] at h
      obtain ⟨-, -, h⟩ := h
      cases h
      exact .move _ rfl rfl rfl rfl nofun (by simp [hpc, Pc.settled]) nofun
        nofun
  | tryCas spin =>
      by_cases hopen : s.mutex = OPEN
      · simp only [hpc, hopen, syncBoolCompareAndSwap_self, if_true] at h
        cases h
        cases build.debugBuild <;>
          exact .win _ rfl rfl rfl rfl hopen rfl rfl nofun
      · simp only [hpc, syncBoolCompareAndSwap_ne hopen] at h
        cases spin <;> cases h <;>
          exact .move _ rfl rfl rfl rfl nofun (by simp [hpc, Pc.settled])
            nofun nofun
  | tryAssert spin =>
      simp only [hpc, Code.bind_eq_ok] at h
      obtain ⟨-, -, h⟩ := h
      cases h
      exact .move _ rfl rfl rfl rfl
        (fun _ => .inr (by simp [hpc, Pc.inRegion])) nofun nofun nofun
  | tryOwner spin =>
      simp only [hpc] at h
      cases h
      exact .sign _ rfl rfl rfl rfl (by simp [hpc, Pc.inRegion])
  | unlockClosed =>
      have hregion : (s.pc i).inRegion = true := by simp [hpc, Pc.inRegion]
      simp only [hpc] at h
      split at h
      · rename_i hclosed
        cases h
        exact .move _ rfl rfl rfl rfl (fun _ => .inr hregion)
          (by simp [hpc, Pc.settled])
          (fun _ => State.is_eq_true.mp hclosed) nofun
      · simp only [Code.bind_eq_ok] at h
        obtain ⟨-, -, h⟩ := h
        cases h
        exact .move _ rfl rfl rfl rfl (fun _ => .inr hregion)
          (by simp [hpc, Pc.settled]) nofun nofun
  | unlockRead =>
      simp only [hpc, Code.bind_eq_ok] at h
      obtain ⟨-, -, h⟩ := h
      cases h
      exact .move _ rfl rfl rfl rfl
        (fun _ => .inr (by simp [hpc, Pc.inRegion]))
        (by simp [hpc, Pc.settled]) nofun nofun
  | unlockOwner =>
      simp only [hpc] at h
      cases h
      exact .clear rfl rfl rfl rfl (by simp [hpc, Pc.inRegion])
  | unlockCas =>
      by_cases hclosed : s.mutex = CLOSED
      · simp only [hpc, hclosed, syncBoolCompareAndSwap_self,
          Build.assert_true, Code.ok_bind] at h
        cases h
        exact .release rfl rfl rfl (by simp [State.goto]) hpc hclosed
      · exact .lost hpc hclosed

theorem step_cases {owner : PthreadT} {s s' : State Tid} {a : Action Tid}
    (h : (system build ids owner).step s a s') : StepCases ids s a.tid s' := by
  cases a with
  | next i => exact advance_cases build ids h
  | call i c =>
      change exec build ids s (.call i c) = .ok s' at h
      cases hpc : s.pc i <;> simp only [exec, hpc] at h <;> try cases h
      split at h <;> cases h
      rename_i hwon
      refine .move _ rfl rfl rfl rfl ?_
        (by simp [Action.tid, hpc, Pc.settled]) ?_ ?_
      · intro hregion
        cases c <;> simp_all [Call.entry, Pc.inRegion, Action.tid]
      · cases c <;> cases hb : build.debugBuild <;>
          simp [Call.entry, hb, Pc.readsOwner]
      · cases c <;> cases hb : build.debugBuild <;> simp [Call.entry, hb]

end Iocore.SpinMutex
