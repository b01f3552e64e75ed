import Iocore.Foundation.System
import Iocore.Foundation.Threads
import Iocore.Pthread
import Mathlib.Data.List.Perm.Basic

/-!
# Read-write locks and their guards

`RWLock` is an abstract class with one implementation, `PThreadRWLock`, whose
`WriteLock` calls `pthread_rwlock_rdlock`: a hold taken through it shuts nobody
out.  Threads use a lock directly or through the two guard classes; the state
keeps, next to the lock itself, through which operation each thread obtained
each of its holds.

The calls of a run are compared with the same calls on a lock that takes the
write side: where these go through as well, nobody was let in who should have
waited.
-/

namespace Iocore.Lock.RW

open Foundation Foundation.System

structure RWLock (Tid : Type) where
  readLock : Pthread.RWLock Tid → Tid → Code (Pthread.RWLock Tid)
  writeLock : Pthread.RWLock Tid → Tid → Code (Pthread.RWLock Tid)
  unlock : Pthread.RWLock Tid → Tid → Code (Pthread.RWLock Tid)

variable {Tid : Type} [DecidableEq Tid] (build : Build)

/-! ## `PThreadRWLock` -/

def readLock (lock : Pthread.RWLock Tid) (i : Tid) :
    Code (Pthread.RWLock Tid) := do
  let (status, lock) ← Pthread.rwlockRdlock lock i
  build.assert (status = .ok)
  return lock

def writeLock (lock : Pthread.RWLock Tid) (i : Tid) :
    Code (Pthread.RWLock Tid) := do
  let (status, lock) ← Pthread.rwlockRdlock lock i
  build.assert (status = .ok)
  return lock

def unlock (lock : Pthread.RWLock Tid) (i : Tid) :
    Code (Pthread.RWLock Tid) := do
  let (status, lock) := Pthread.rwlockUnlock lock i
  build.assert (status = .ok)
  return lock

def pthreadRWLock : RWLock Tid where
  readLock := readLock build
  writeLock := writeLock build
  unlock := unlock build

/-- The same lock, but that `WriteLock` calls `pthread_rwlock_wrlock`. -/
def writeSide : RWLock Tid where
  readLock := readLock build
  writeLock lock i := do
    let (status, lock) ← Pthread.rwlockWrlock lock i
    build.assert (status = .ok)
    return lock
  unlock := unlock build

/-! ## `AutoReadLock` and `AutoWriteLock` -/

inductive Mode where
  | read
  | write
  deriving DecidableEq, Repr

variable (rwlock : RWLock Tid)

def acquire (lock : Pthread.RWLock Tid) (i : Tid) :
    Mode → Code (Pthread.RWLock Tid)
  | .read => rwlock.readLock lock i
  | .write => rwlock.writeLock lock i

structure Guard where
  mode : Mode
  armed : Bool
  deriving DecidableEq, Repr

def Guard.construct (mode : Mode) (lock : Pthread.RWLock Tid) (i : Tid) :
    Code (Pthread.RWLock Tid × Guard) := do
  let lock ← acquire rwlock lock i mode
  return (lock, ⟨mode, true⟩)

def Guard.unlock (guard : Guard) (lock : Pthread.RWLock Tid) (i : Tid) :
    Code (Pthread.RWLock Tid × Guard) := do
  build.assert guard.armed
  let lock ← rwlock.unlock lock i
  return (lock, { guard with armed := false })

def Guard.destroy (guard : Guard) (lock : Pthread.RWLock Tid) (i : Tid) :
    Code (Pthread.RWLock Tid) :=
  if guard.armed then rwlock.unlock lock i else return lock

/-! ## Threads that use one lock -/

structure State (Tid : Type) where
  rwlock : Pthread.RWLock Tid
  direct : Tid → List Mode
  /-- Guard objects in scope, innermost first. -/
  guards : Tid → List Guard

inductive Action (Tid : Type) where
  | lock (i : Tid) (mode : Mode)
  | unlock (i : Tid) (mode : Mode)
  | construct (i : Tid) (mode : Mode)
  | guardUnlock (i : Tid) (index : Nat)
  | leave (i : Tid)
  deriving DecidableEq, Repr

def initial (Tid : Type) : State Tid :=
  ⟨.readers [], fun _ => [], fun _ => []⟩

/--
One call.  A thread gives back only what it holds: a direct `Unlock` names one
of its direct holds, `Guard::Unlock` is called on an armed guard.
-/
def exec (s : State Tid) : Action Tid → Code (State Tid)
  | .lock i mode => do
      let lock ← acquire rwlock s.rwlock i mode
      return { s with
        rwlock := lock
        direct := Function.update s.direct i (mode :: s.direct i) }
  | .unlock i mode =>
      if mode ∈ s.direct i then do
        let lock ← rwlock.unlock s.rwlock i
        return { s with
          rwlock := lock
          direct := Function.update s.direct i ((s.direct i).erase mode) }
      else .error .blocked
  | .construct i mode => do
      let (lock, guard) ← Guard.construct rwlock mode s.rwlock i
      return { s with
        rwlock := lock
        guards := Function.update s.guards i (guard :: s.guards i) }
  | .guardUnlock i index =>
      match (s.guards i)[index]? with
      | none => .error .blocked
      | some guard =>
          if guard.armed then do
            let (lock, guard) ← guard.unlock build rwlock s.rwlock i
            return { s with
              rwlock := lock
              guards :=
                Function.update s.guards i ((s.guards i).set index guard) }
          else .error .blocked
  | .leave i =>
      match s.guards i with
      | [] => .error .blocked
      | guard :: rest => do
          let lock ← guard.destroy rwlock s.rwlock i
          return { s with
            rwlock := lock
            guards := Function.update s.guards i rest }

def system (Tid : Type) [DecidableEq Tid] : System (State Tid) (Action Tid) :=
  .ofFunction (fun s => s = initial Tid) (exec build (pthreadRWLock build))

def debugBuild : Build := ⟨true, false⟩

def granting (Tid : Type) [DecidableEq Tid] :
    System (State Tid) (Action Tid) :=
  .ofFunction (fun s => s = initial Tid) (exec debugBuild (writeSide debugBuild))

/-- The calls of the run, in their order, go through with the write side too. -/
def Granted (tr : History (State Tid) (Action Tid)) : Prop :=
  ∃ tr' s', (granting Tid).Exec tr' s' ∧ tr'.map Prod.snd = tr.map Prod.snd

def State.holds (s : State Tid) (i : Tid) : List Mode :=
  s.direct i ++ ((s.guards i).filter Guard.armed).map Guard.mode

def heldBy : Pthread.RWLock Tid → Tid → Nat
  | .readers holds, i => holds.count i
  | .writer owner, i => if owner = i then 1 else 0

/-- While a thread holds the lock through `WriteLock`, the lock has no other. -/
def Exclusion (s : State Tid) : Prop :=
  ∀ i j, Mode.write ∈ s.holds i → j ≠ i → heldBy s.rwlock j = 0

def Action.acquires : Action Tid → Option (Tid × Mode)
  | .lock i mode | .construct i mode => some (i, mode)
  | .unlock _ _ | .guardUnlock _ _ | .leave _ => none

/-- A thread asks for the lock only when it does not hold it. -/
def Single (s : State Tid) (a : Action Tid) : Prop :=
  ∀ p ∈ a.acquires, s.holds p.1 = []

instance (s : State Tid) (a : Action Tid) : Decidable (Single s a) :=
  inferInstanceAs (Decidable (∀ p ∈ a.acquires, s.holds p.1 = []))

/-! ## What a step does -/

variable {build rwlock}

inductive StepCases (rwlock : RWLock Tid) (s s' : State Tid)
    (a : Action Tid) : Prop
  | acquire (i : Tid) (mode : Mode) (label : a.acquires = some (i, mode))
      (lock : RW.acquire rwlock s.rwlock i mode = .ok s'.rwlock)
      (here : (s'.holds i).Perm (mode :: s.holds i))
      (others : ∀ j, j ≠ i → s'.holds j = s.holds j)
  | release (i : Tid) (mode : Mode) (label : a.acquires = none)
      (lock : rwlock.unlock s.rwlock i = .ok s'.rwlock)
      (here : (s.holds i).Perm (mode :: s'.holds i))
      (others : ∀ j, j ≠ i → s'.holds j = s.holds j)
  | keep (label : a.acquires = none) (lock : s'.rwlock = s.rwlock)
      (holds : s'.holds = s.holds)

private theorem filter_set_perm (guards : List Guard) (index : Nat)
    (guard : Guard) (hget : guards[index]? = some guard)
    (harmed : guard.armed = true) :
    (guards.filter Guard.armed).Perm
      (guard :: (guards.set index { guard with armed := false }).filter
        Guard.armed) := by
  induction guards generalizing index with
  | nil => simp at hget
  | cons first rest ih =>
      cases index with
      | zero =>
          obtain rfl : first = guard := by simpa using hget
          simp [harmed]
      | succ index =>
          have hrest := ih index (by simpa using hget)
          cases hfirst : first.armed with
          | false => simpa [hfirst] using hrest
          | true =>
              simp only [List.set_cons_succ, List.filter_cons, hfirst,
                if_true]
              exact (hrest.cons first).trans (.swap _ _ _)

theorem step_cases {s s' : State Tid} {a : Action Tid}
    (h : exec build rwlock s a = .ok s') : StepCases rwlock s s' a := by
  cases a with
  | lock i mode =>
      simp only [exec, Code.bind_eq_ok] at h
      obtain ⟨lock, hlock, h⟩ := h
      cases h
      refine .acquire i mode rfl hlock ?_ fun j hj => ?_
      · simp [State.holds]
      · simp [State.holds, Function.update_of_ne hj]
  | unlock i mode =>
      by_cases hmem : mode ∈ s.direct i
      · simp only [exec, hmem, if_true, Code.bind_eq_ok] at h
        obtain ⟨lock, hlock, h⟩ := h
        cases h
        refine .release i mode rfl hlock ?_ fun j hj => ?_
        · simpa [State.holds] using
            (List.perm_cons_erase hmem).append_right _
        · simp [State.holds, Function.update_of_ne hj]
      · simp [exec, hmem] at h
  | construct i mode =>
      simp only [exec, Guard.construct, Code.bind_eq_ok] at h
      obtain ⟨⟨lock, guard⟩, ⟨lock', hlock, heq⟩, h⟩ := h
      cases heq
      cases h
      refine .acquire i mode rfl hlock ?_ fun j hj => ?_
      · simp [State.holds]
      · simp [State.holds, Function.update_of_ne hj]
  | guardUnlock i index =>
      cases hget : (s.guards i)[index]? with
      | none => simp [exec, hget] at h
      | some guard =>
          cases harmed : guard.armed with
          | false => simp [exec, hget, harmed] at h
          | true =>
              simp only [exec, hget, harmed, if_true, Guard.unlock,
                Build.assert_true, Code.ok_bind, Code.bind_eq_ok] at h
              obtain ⟨⟨lock, after⟩, ⟨lock', hlock, heq⟩, h⟩ := h
              cases heq
              cases h
              refine .release i guard.mode rfl hlock ?_ fun j hj => ?_
              · have hperm := (filter_set_perm _ _ _ hget harmed).map Guard.mode
                simpa [State.holds] using
                  (hperm.append_left (s.direct i)).trans List.perm_middle
              · simp [State.holds, Function.update_of_ne hj]
  | leave i =>
      cases hguards : s.guards i with
      | nil => simp [exec, hguards] at h
      | cons guard rest =>
          simp only [exec, hguards, Code.bind_eq_ok] at h
          obtain ⟨lock, hlock, h⟩ := h
          cases h
          cases harmed : guard.armed with
          | true =>
              simp only [Guard.destroy, harmed, if_true] at hlock
              refine .release i guard.mode rfl hlock ?_ fun j hj => ?_
              · simp [State.holds, hguards, harmed]
              · simp [State.holds, Function.update_of_ne hj]
          | false =>
              simp only [Guard.destroy, harmed] at hlock
              cases hlock
              refine .keep rfl rfl (funext fun j => ?_)
              by_cases hj : j = i
              · subst hj
                simp [State.holds, hguards, harmed]
              · simp [State.holds, Function.update_of_ne hj]

/-! ## Runs of the same calls on two locks -/

def Alike (s t : State Tid) : Prop := t.direct = s.direct ∧ t.guards = s.guards

omit [DecidableEq Tid] in
theorem Alike.holds {s t : State Tid} (h : Alike s t) : t.holds = s.holds := by
  funext i
  rw [State.holds, State.holds, h.1, h.2]

theorem Alike.step {build' : Build} {rwlock' : RWLock Tid}
    {s s' t t' : State Tid} {a : Action Tid} (h : Alike s t)
    (hs : exec build rwlock s a = .ok s')
    (ht : exec build' rwlock' t a = .ok t') : Alike s' t' := by
  obtain ⟨hdirect, hguards⟩ := h
  cases a with
  | lock i mode =>
      obtain ⟨lock, -, hs⟩ := Code.bind_eq_ok.mp hs
      obtain ⟨lock', -, ht⟩ := Code.bind_eq_ok.mp ht
      cases hs
      cases ht
      exact ⟨by simp [hdirect], hguards⟩
  | unlock i mode =>
      by_cases hmem : mode ∈ s.direct i
      · simp only [exec, hdirect, hmem, if_true, Code.bind_eq_ok] at hs ht
        obtain ⟨lock, -, hs⟩ := hs
        obtain ⟨lock', -, ht⟩ := ht
        cases hs
        cases ht
        exact ⟨rfl, hguards⟩
      · simp [exec, hmem] at hs
  | construct i mode =>
      simp only [exec, Guard.construct, Code.bind_eq_ok] at hs ht
      obtain ⟨⟨lock, guard⟩, ⟨_, _, hpair⟩, hs⟩ := hs
      obtain ⟨⟨lock', guard'⟩, ⟨_, _, hpair'⟩, ht⟩ := ht
      cases hpair
      cases hpair'
      cases hs
      cases ht
      exact ⟨hdirect, by simp [hguards]⟩
  | guardUnlock i index =>
      cases hget : (s.guards i)[index]? with
      | none => simp [exec, hget] at hs
      | some guard =>
          cases harmed : guard.armed with
          | false => simp [exec, hget, harmed] at hs
          | true =>
              simp only [exec, hguards, hget, harmed, if_true, Guard.unlock,
                Build.assert_true, Code.ok_bind, Code.bind_eq_ok] at hs ht
              obtain ⟨⟨lock, after⟩, ⟨_, _, hpair⟩, hs⟩ := hs
              obtain ⟨⟨lock', after'⟩, ⟨_, _, hpair'⟩, ht⟩ := ht
              cases hpair
              cases hpair'
              cases hs
              cases ht
              exact ⟨hdirect, rfl⟩
  | leave i =>
      cases hcons : s.guards i with
      | nil => simp [exec, hcons] at hs
      | cons guard rest =>
          simp only [exec, hguards, hcons, Code.bind_eq_ok] at hs ht
          obtain ⟨lock, -, hs⟩ := hs
          obtain ⟨lock', -, ht⟩ := ht
          cases hs
          cases ht
          exact ⟨hdirect, rfl⟩

theorem Alike.enabled (build' : Build) {rwlock' : RWLock Tid}
    {s s' t : State Tid} {a : Action Tid} (h : Alike s t)
    (hs : exec build rwlock s a = .ok s')
    (acquires : ∀ i mode, a.acquires = some (i, mode) →
      ∃ lock, acquire rwlock' t.rwlock i mode = .ok lock)
    (releases : ∀ i mode, mode ∈ t.holds i →
      ∃ lock, rwlock'.unlock t.rwlock i = .ok lock) :
    ∃ t', exec build' rwlock' t a = .ok t' := by
  obtain ⟨hdirect, hguards⟩ := h
  cases a with
  | lock i mode =>
      obtain ⟨lock, hlock⟩ := acquires i mode rfl
      exact ⟨_, Code.bind_eq_ok.mpr ⟨lock, hlock, rfl⟩⟩
  | unlock i mode =>
      by_cases hmem : mode ∈ s.direct i
      · obtain ⟨lock, hlock⟩ := releases i mode
          (List.mem_append_left _ (by rwa [hdirect]))
        simp only [exec, hdirect, hmem, if_true, hlock]
        exact ⟨_, rfl⟩
      · simp [exec, hmem] at hs
  | construct i mode =>
      obtain ⟨lock, hlock⟩ := acquires i mode rfl
      simp only [exec, Guard.construct, hlock]
      exact ⟨_, rfl⟩
  | guardUnlock i index =>
      cases hget : (s.guards i)[index]? with
      | none => simp [exec, hget] at hs
      | some guard =>
          cases harmed : guard.armed with
          | false => simp [exec, hget, harmed] at hs
          | true =>
              have hmem : guard ∈ t.guards i := by
                rw [hguards]
                exact List.mem_of_getElem? hget
              obtain ⟨lock, hlock⟩ := releases i guard.mode
                (List.mem_append_right _ (List.mem_map_of_mem
                  (List.mem_filter.mpr ⟨hmem, harmed⟩)))
              simp only [exec, hguards, hget, harmed, if_true, Guard.unlock,
                Build.assert_true, Code.ok_bind, hlock]
              exact ⟨_, rfl⟩
  | leave i =>
      cases hcons : s.guards i with
      | nil => simp [exec, hcons] at hs
      | cons guard rest =>
          simp only [exec, hguards, hcons, Guard.destroy]
          cases harmed : guard.armed with
          | false => exact ⟨_, rfl⟩
          | true =>
              have hmem : guard ∈ t.guards i := by simp [hguards, hcons]
              obtain ⟨lock, hlock⟩ := releases i guard.mode
                (List.mem_append_right _ (List.mem_map_of_mem
                  (List.mem_filter.mpr ⟨hmem, harmed⟩)))
              simp only [hlock, if_true]
              exact ⟨_, rfl⟩

/-! ## What the locks know of the holds -/

theorem acquire_readers (holds : List Tid) (i : Tid) (mode : Mode) :
    acquire (pthreadRWLock build) (.readers holds) i mode =
      .ok (.readers (i :: holds)) := by
  cases mode <;>
    simp [acquire, pthreadRWLock, readLock, writeLock, Pthread.rwlockRdlock,
      pure, Except.pure]

theorem unlock_readers {holds : List Tid} {i : Tid} (h : i ∈ holds) :
    unlock build (.readers holds) i = .ok (.readers (holds.erase i)) := by
  simp [unlock, Pthread.rwlockUnlock, h, pure, Except.pure]

theorem count_erase {s s' : State Tid} {readers : List Tid} {i : Tid}
    {mode : Mode} (hcount : ∀ j, readers.count j = (s.holds j).length)
    (here : (s.holds i).Perm (mode :: s'.holds i))
    (others : ∀ j, j ≠ i → s'.holds j = s.holds j) :
    i ∈ readers ∧
      ∀ j, (readers.erase i).count j = (s'.holds j).length := by
  have hlength : (s.holds i).length = (s'.holds i).length + 1 := by
    simpa using here.length_eq
  refine ⟨?_, fun j => ?_⟩
  · rw [← List.count_pos_iff, hcount i, hlength]
    omega
  · by_cases hj : j = i
    · subst hj
      rw [List.count_erase_self, hcount j, hlength]
      omega
    · rw [List.count_erase_of_ne hj, hcount j, others j hj]

theorem count_cons {s s' : State Tid} {readers : List Tid} {i : Tid}
    {mode : Mode} (hcount : ∀ j, readers.count j = (s.holds j).length)
    (here : (s'.holds i).Perm (mode :: s.holds i))
    (others : ∀ j, j ≠ i → s'.holds j = s.holds j) (j : Tid) :
    (i :: readers).count j = (s'.holds j).length := by
  by_cases hj : j = i
  · subst hj
    simp [here.length_eq, hcount]
  · simp [others j hj, Ne.symm hj, hcount]

def Accounted (s : State Tid) : Prop :=
  ∃ readers, s.rwlock = .readers readers ∧
    ∀ i, readers.count i = (s.holds i).length

theorem accounted_inductive : (system build Tid).Inductive Accounted where
  init := by
    rintro s rfl
    exact ⟨[], rfl, fun i => by simp [initial, State.holds]⟩
  step := by
    rintro s a s' ⟨readers, hlock, hcount⟩ hstep
    cases step_cases hstep with
    | acquire i mode label lock here others =>
        rw [hlock, acquire_readers] at lock
        exact ⟨i :: readers, (Except.ok.inj lock).symm,
          count_cons hcount here others⟩
    | release i mode label lock here others =>
        obtain ⟨hmem, hcount'⟩ := count_erase hcount here others
        rw [hlock] at lock
        exact ⟨readers.erase i,
          (Except.ok.inj ((unlock_readers hmem).symm.trans lock)).symm, hcount'⟩
    | keep label lock holds =>
        exact ⟨readers, by rw [lock, hlock], by rw [holds]; exact hcount⟩

/-- No call for the lock ever blocks: nobody takes the write side of it. -/
theorem lock_never_blocks {s : State Tid}
    (run : (system build Tid).Reachable s) (i : Tid) (mode : Mode) :
    ∃ lock, acquire (pthreadRWLock build) s.rwlock i mode = .ok lock := by
  obtain ⟨readers, hlock, -⟩ := accounted_inductive.reachable run
  exact ⟨.readers (i :: readers), by rw [hlock, acquire_readers]⟩

theorem Accounted.heldBy_eq {s : State Tid} (h : Accounted s) (j : Tid) :
    heldBy s.rwlock j = (s.holds j).length := by
  obtain ⟨readers, hlock, hcount⟩ := h
  rw [hlock]
  exact hcount j

/-- With the write side the lock is with readers, or with one writer alone. -/
inductive Admitted (s : State Tid) : Prop
  | readers (readers : List Tid) (lock : s.rwlock = .readers readers)
      (count : ∀ i, readers.count i = (s.holds i).length)
      (reading : ∀ i, Mode.write ∉ s.holds i)
  | writer (i : Tid) (lock : s.rwlock = .writer i) (alone : s.holds i = [.write])
      (others : ∀ j, j ≠ i → s.holds j = [])

theorem writeSide_write {lock lock' : Pthread.RWLock Tid} {i : Tid}
    (h : acquire (writeSide debugBuild) lock i .write = .ok lock') :
    lock = .readers [] ∧ lock' = .writer i := by
  cases lock with
  | readers holds =>
      cases holds with
      | nil =>
          cases h
          exact ⟨rfl, rfl⟩
      | cons j holds => cases h
  | writer owner =>
      by_cases howner : owner = i
      · simp [acquire, writeSide, Pthread.rwlockWrlock, howner, debugBuild,
          Build.assert] at h
      · simp [acquire, writeSide, Pthread.rwlockWrlock, howner] at h

theorem writeSide_read {lock lock' : Pthread.RWLock Tid} {i : Tid}
    (h : acquire (writeSide debugBuild) lock i .read = .ok lock') :
    ∃ holds, lock = .readers holds ∧ lock' = .readers (i :: holds) := by
  cases lock with
  | readers holds =>
      cases h
      exact ⟨holds, rfl, rfl⟩
  | writer owner =>
      by_cases howner : owner = i
      · simp [acquire, writeSide, readLock, Pthread.rwlockRdlock, howner,
          debugBuild, Build.assert] at h
      · simp [acquire, writeSide, readLock, Pthread.rwlockRdlock, howner] at h

theorem admitted_inductive : (granting Tid).Inductive Admitted where
  init := by
    rintro s rfl
    exact .readers [] rfl (fun i => by simp [initial, State.holds])
      fun i => by simp [initial, State.holds]
  step := by
    rintro s a s' h hstep
    cases step_cases hstep with
    | acquire i mode label lock here others =>
        cases mode with
        | read =>
            obtain ⟨holds, hlock, hlock'⟩ := writeSide_read lock
            cases h with
            | writer k lock' => rw [hlock] at lock'; cases lock'
            | readers readers lock' count reading =>
                obtain rfl : holds = readers := by
                  rw [hlock] at lock'
                  exact Pthread.RWLock.readers.inj lock'
                refine .readers (i :: holds) hlock'
                  (count_cons count here others) fun j hwrite => ?_
                by_cases hj : j = i
                · subst hj
                  exact reading j (by simpa using here.mem_iff.mp hwrite)
                · rw [others j hj] at hwrite
                  exact reading j hwrite
        | write =>
            obtain ⟨hlock, hlock'⟩ := writeSide_write lock
            cases h with
            | writer k lock' => rw [hlock] at lock'; cases lock'
            | readers readers lock' count reading =>
                obtain rfl : [] = readers := by
                  rw [hlock] at lock'
                  exact Pthread.RWLock.readers.inj lock'
                have hnone (j : Tid) : s.holds j = [] :=
                  List.eq_nil_of_length_eq_zero (count j).symm
                rw [hnone i] at here
                exact .writer i hlock' (List.perm_singleton.mp here)
                  fun j hj => (others j hj).trans (hnone j)
    | release i mode label lock here others =>
        cases h with
        | readers readers lock' count reading =>
            obtain ⟨hmem, hcount'⟩ := count_erase count here others
            rw [lock'] at lock
            refine .readers (readers.erase i)
              (Except.ok.inj ((unlock_readers hmem).symm.trans lock)).symm hcount'
              fun j hwrite => reading j ?_
            by_cases hj : j = i
            · subst hj
              exact here.mem_iff.mpr (List.mem_cons_of_mem _ hwrite)
            · rwa [others j hj] at hwrite
        | writer k lock' alone others' =>
            obtain rfl : i = k := by
              by_contra hik
              rw [others' i hik] at here
              exact List.not_mem_nil (here.mem_iff.mpr List.mem_cons_self)
            have hnone : s'.holds i = [] := by
              rw [alone] at here
              simpa using here.length_eq
            have hnobody (j : Tid) : s'.holds j = [] := by
              by_cases hj : j = i
              · rw [hj, hnone]
              · rw [others j hj, others' j hj]
            rw [lock'] at lock
            have hfree : unlock debugBuild (.writer i) i =
                .ok (.readers []) := by
              simp [unlock, Pthread.rwlockUnlock, pure, Except.pure]
            exact .readers [] (Except.ok.inj (hfree.symm.trans lock)).symm
              (fun j => by rw [hnobody]; rfl) fun j => by rw [hnobody]; nofun
    | keep label lock holds =>
        cases h with
        | readers readers lock' count reading =>
            exact .readers readers (lock.trans lock') (by rwa [holds])
              (by rwa [holds])
        | writer k lock' alone others' =>
            exact .writer k (lock.trans lock') (by rwa [holds]) (by rwa [holds])

/-! ## Exclusion -/

theorem alike_of_labels {tr tr' : History (State Tid) (Action Tid)}
    {s t : State Tid} (run : (system build Tid).Exec tr s)
    (run' : (granting Tid).Exec tr' t)
    (labels : tr'.map Prod.snd = tr.map Prod.snd) : Alike s t := by
  induction run generalizing tr' t with
  | start init =>
      obtain rfl := init
      obtain rfl := List.map_eq_nil_iff.mp labels
      cases run' with
      | start init =>
          obtain rfl := init
          exact ⟨rfl, rfl⟩
  | next run step ih =>
      cases run' with
      | start init => cases labels
      | next run' step' =>
          obtain ⟨rfl, hrest⟩ := List.cons.inj labels
          exact (ih run' hrest).step step step'

theorem exclusion_of_granted {tr : History (State Tid) (Action Tid)}
    {s : State Tid} (run : (system build Tid).Exec tr s)
    (granted : Granted tr) : Exclusion s := by
  obtain ⟨tr', t, run', labels⟩ := granted
  have hholds := (alike_of_labels run run' labels).holds
  intro i j hwrite hne
  rw [(accounted_inductive.exec run).heldBy_eq, ← hholds]
  rw [← hholds] at hwrite
  cases admitted_inductive.exec run' with
  | readers readers lock count reading => exact absurd hwrite (reading i)
  | writer k lock alone others =>
      by_cases hik : i = k
      · rw [others j (hik ▸ hne)]
        rfl
      · rw [others i hik] at hwrite
        cases hwrite

theorem Granted.tail {tr : History (State Tid) (Action Tid)} {s : State Tid}
    {a : Action Tid} (h : Granted ((s, a) :: tr)) : Granted tr := by
  obtain ⟨tr', t, run, labels⟩ := h
  cases run with
  | start init => cases labels
  | next run step => exact ⟨_, _, run, (List.cons.inj labels).2⟩

/-- What is asked for while the lock excludes others is granted. -/
theorem acquire_granted {s s' t : State Tid} {a : Action Tid}
    (hstep : (system build Tid).step s a s') (haccounted : Accounted s)
    (hexcl : Exclusion s') (single : Single s a) (halike : Alike s t)
    (hadmitted : Admitted t) {i : Tid} {mode : Mode}
    (label : a.acquires = some (i, mode)) :
    ∃ lock, acquire (writeSide debugBuild) t.rwlock i mode = .ok lock := by
  have hafter := accounted_inductive.step haccounted hstep
  have hmine : s.holds i = [] := single (i, mode) label
  cases step_cases hstep with
  | release k mode' label' | keep label' => rw [label] at label'; cases label'
  | acquire k mode' label' lock here others =>
      obtain ⟨rfl, rfl⟩ : i = k ∧ mode = mode' := by
        rw [label] at label'
        cases label'
        exact ⟨rfl, rfl⟩
      have hasked : mode ∈ s'.holds i := here.mem_iff.mpr List.mem_cons_self
      cases mode with
      | read =>
          -- A writer would exclude the reader that has just been let in.
          cases hadmitted with
          | readers readers lock' => exact ⟨.readers (i :: readers), by
              rw [lock']; rfl⟩
          | writer k lock' alone others' =>
              rw [halike.holds] at alone
              have hki : k ≠ i := by
                rintro rfl
                rw [hmine] at alone
                cases alone
              have hwrite : Mode.write ∈ s'.holds k := by
                rw [others k hki, alone]
                exact List.mem_cons_self
              have hnone := hexcl k i hwrite (Ne.symm hki)
              rw [hafter.heldBy_eq] at hnone
              rw [List.eq_nil_of_length_eq_zero hnone] at hasked
              cases hasked
      | write =>
          have hnobody (j : Tid) : t.holds j = [] := by
            rw [halike.holds]
            by_cases hj : j = i
            · rw [hj, hmine]
            · have hnone := hexcl i j hasked hj
              rw [hafter.heldBy_eq, others j hj] at hnone
              exact List.eq_nil_of_length_eq_zero hnone
          cases hadmitted with
          | writer k lock' alone others' =>
              rw [hnobody k] at alone
              cases alone
          | readers readers lock' count reading =>
              have hfree : readers = [] := by
                refine List.eq_nil_iff_forall_not_mem.mpr fun j hj => ?_
                have hcount := count j
                rw [hnobody j] at hcount
                exact absurd (List.count_pos_iff.mpr hj) (by simp [hcount])
              exact ⟨.writer i, by rw [lock', hfree]; rfl⟩

theorem release_granted {t : State Tid} (hadmitted : Admitted t) {i : Tid}
    {mode : Mode} (hmem : mode ∈ t.holds i) :
    ∃ lock, (writeSide debugBuild).unlock t.rwlock i = .ok lock := by
  cases hadmitted with
  | readers readers lock count reading =>
      have hreads : i ∈ readers := by
        rw [← List.count_pos_iff, count i]
        exact List.length_pos_of_mem hmem
      exact ⟨_, by rw [lock]; exact unlock_readers hreads⟩
  | writer k lock alone others =>
      obtain rfl : i = k := by
        by_contra hik
        rw [others i hik] at hmem
        cases hmem
      exact ⟨.readers [], by
        rw [lock]
        simp [writeSide, unlock, Pthread.rwlockUnlock, pure, Except.pure]⟩

theorem granted_of_exclusion {tr : History (State Tid) (Action Tid)}
    {s : State Tid} (run : (system build Tid).Exec tr s)
    (single : Meets Single tr) (hexcl : ∀ y ∈ visited tr s, Exclusion y) :
    Granted tr := by
  induction run with
  | start init => exact ⟨[], _, .start rfl, rfl⟩
  | @next tr s s' a run step ih =>
      obtain ⟨hsingle, hrest⟩ := meets_cons.mp single
      obtain ⟨tr', t, run', labels⟩ := ih hrest fun y hy =>
        hexcl y (mem_visited_cons.mpr (.inr hy))
      have halike := alike_of_labels run run' labels
      have hadmitted := admitted_inductive.exec run'
      obtain ⟨t', hstep'⟩ := halike.enabled debugBuild step
        (fun i mode label => acquire_granted step
          (accounted_inductive.exec run)
          (hexcl s' (mem_visited_cons.mpr (.inl rfl))) hsingle halike hadmitted
          label)
        fun i mode hmem => release_granted hadmitted hmem
      exact ⟨(t, a) :: tr', t', run'.next hstep', by
        rw [List.map_cons, List.map_cons, labels]⟩

/--
Writers are alone throughout a run whose calls the write side would let through
as well.  If no thread asks for a lock that it holds, they are in no other run.
-/
theorem exclusion_iff_granted {tr : History (State Tid) (Action Tid)}
    {s : State Tid} (run : (system build Tid).Exec tr s) :
    (Granted tr → ∀ y ∈ visited tr s, Exclusion y) ∧
      (Meets Single tr → (∀ y ∈ visited tr s, Exclusion y) → Granted tr) := by
  refine ⟨fun granted => ?_, granted_of_exclusion run⟩
  induction run with
  | start init =>
      intro y hy
      rw [mem_visited_nil] at hy
      exact hy ▸ exclusion_of_granted (.start init) granted
  | next run step ih =>
      intro y hy
      rcases mem_visited_cons.mp hy with rfl | hy
      · exact exclusion_of_granted (run.next step) granted
      · exact ih granted.tail y hy

theorem writer_then_readers_exclusion :
    ∃ tr s, (system defaultBuild (Fin 2)).Exec tr s ∧
      (s.holds 0 = [.read] ∧ s.holds 1 = [.read]) ∧ Granted tr ∧
      ∀ y ∈ visited tr s, Exclusion y := by
  obtain ⟨tr, s, run, htest⟩ :
      ∃ tr s, (system defaultBuild (Fin 2)).Exec tr s ∧
        decide (Meets Single tr ∧ tr.map Prod.snd =
            [.construct 1 .read, .lock 0 .read, .leave 0, .construct 0 .write] ∧
          s.holds 0 = [.read] ∧ s.holds 1 = [.read]) = true :=
    Exec.ofRecord (exec defaultBuild (pthreadRWLock defaultBuild))
      (initial (Fin 2))
      [.construct 0 .write, .leave 0, .lock 0 .read, .construct 1 .read]
      (fun r => decide (Meets Single r.1 ∧ r.1.map Prod.snd =
          [.construct 1 .read, .lock 0 .read, .leave 0, .construct 0 .write] ∧
        r.2.holds 0 = [.read] ∧ r.2.holds 1 = [.read]))
      rfl (by decide)
  obtain ⟨tr', s', run', htest'⟩ :
      ∃ tr s, (granting (Fin 2)).Exec tr s ∧
        decide (tr.map Prod.snd =
          [.construct 1 .read, .lock 0 .read, .leave 0, .construct 0 .write]) =
            true :=
    Exec.ofRecord (exec debugBuild (writeSide debugBuild)) (initial (Fin 2))
      [.construct 0 .write, .leave 0, .lock 0 .read, .construct 1 .read]
      (fun r => decide (r.1.map Prod.snd =
        [.construct 1 .read, .lock 0 .read, .leave 0, .construct 0 .write]))
      rfl (by decide)
  obtain ⟨-, hlabels, hholds⟩ := of_decide_eq_true htest
  have hgranted : Granted tr :=
    ⟨tr', s', run', (of_decide_eq_true htest').trans hlabels.symm⟩
  exact ⟨tr, s, run, hholds, hgranted,
    (exclusion_iff_granted run).1 hgranted⟩

theorem not_exclusion :
    ¬ ∀ s : State (Fin 2), (system defaultBuild (Fin 2)).Reachable s →
      Exclusion s := by
  intro h
  obtain ⟨tr, s, run, htest⟩ :
      ∃ tr s, (system defaultBuild (Fin 2)).Exec tr s ∧
        decide (s.holds 0 = [.write] ∧ heldBy s.rwlock 1 = 1) = true :=
    Exec.ofRecord (exec defaultBuild (pthreadRWLock defaultBuild))
      (initial (Fin 2)) [.lock 0 .write, .construct 1 .write]
      (fun r => decide (r.2.holds 0 = [.write] ∧ heldBy r.2.rwlock 1 = 1))
      rfl (by decide)
  obtain ⟨first, second⟩ := of_decide_eq_true htest
  have hempty := h s run.reachable 0 1 (by simp [first]) (by decide)
  simp [second] at hempty

end Iocore.Lock.RW
