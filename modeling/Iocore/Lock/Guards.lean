import Iocore.Foundation.References
import Iocore.Foundation.System
import Iocore.Defs
import Mathlib.Data.List.Flatten

/-!
# Lock guards

A guard keeps the pointer to its lock, and its destructor releases the lock
unless the pointer is null.  `AutoLock` declares its copy constructor private,
which deletes that of `AutoUnlock`; the guards of read-write locks declare
none, and none of the four declares an assignment.  So the compiler supplies
operations that make two guards responsible for one acquisition, or none.

The program is one thread.  Its guards are numbered as they are constructed; a
lock is held as often as it was acquired and not released.
-/

namespace Iocore.Guard

open Foundation Foundation.System

inductive GuardClass where
  | autoLock
  | autoUnlock
  | autoReadLock
  | autoWriteLock
  deriving DecidableEq, Repr

namespace GuardClass

def copyConstructible : GuardClass → Bool
  | .autoLock | .autoUnlock => false
  | .autoReadLock | .autoWriteLock => true

def assignable : GuardClass → Bool
  | .autoLock | .autoUnlock | .autoReadLock | .autoWriteLock => true

def acquires : GuardClass → Bool
  | .autoUnlock => false
  | .autoLock | .autoReadLock | .autoWriteLock => true

end GuardClass

inductive LockObject (M R : Type) where
  | mutex (mutex : M)
  | rwlock (rwlock : R)
  deriving DecidableEq, Repr

variable {M R : Type}

def GuardClass.guards : GuardClass → LockObject M R → Bool
  | .autoLock, .mutex _ | .autoUnlock, .mutex _ => true
  | .autoReadLock, .rwlock _ | .autoWriteLock, .rwlock _ => true
  | _, _ => false

/--
What the program has done to its locks: `own` counts the acquisitions that are
not in the care of a guard, `released` the calls of `Unlock`.  `violated` says
that some lock was released that the program did not hold.
-/
structure Ledger (L : Type) where
  held : L → ℕ
  own : L → ℕ
  entrusted : L → ℕ
  released : L → ℕ
  violated : Bool

structure State (M R : Type) where
  scopes : List (List ℕ)
  next : ℕ
  cls : ℕ → GuardClass
  ptr : ℕ → Option (LockObject M R)
  ledger : Ledger (LockObject M R)

inductive Action (M R : Type) where
  | enter
  | leave
  | lock (mutex : LockObject M R)
  | construct (cls : GuardClass) (mutex : LockObject M R)
  | copy (src : ℕ)
  | assign (dst src : ℕ)
  | unlock (guard : ℕ)
  deriving DecidableEq, Repr

def initial (M R : Type) : State M R where
  scopes := []
  next := 0
  cls := fun _ => .autoLock
  ptr := fun _ => none
  ledger := ⟨fun _ => 0, fun _ => 0, fun _ => 0, fun _ => 0, false⟩

def State.live (s : State M R) : List ℕ := s.scopes.flatten

variable [DecidableEq M] [DecidableEq R]

namespace Ledger

variable {L : Type} [DecidableEq L]

def lock (ledger : Ledger L) (l : L) : Ledger L :=
  { ledger with
    held := Function.update ledger.held l (ledger.held l + 1)
    own := Function.update ledger.own l (ledger.own l + 1) }

def entrust (ledger : Ledger L) (l : L) : Ledger L :=
  { ledger with
    own := Function.update ledger.own l (ledger.own l - 1)
    entrusted := Function.update ledger.entrusted l (ledger.entrusted l + 1) }

def unlock (ledger : Ledger L) (l : L) : Ledger L :=
  { ledger with
    held := Function.update ledger.held l (ledger.held l - 1)
    released := Function.update ledger.released l (ledger.released l + 1)
    violated := ledger.violated || ledger.held l = 0 }

variable (ledger : Ledger L) (l r : L)

theorem lock_held : (ledger.lock l).held r = ledger.held r + ref (some l) r :=
  update_add_one ledger.held l r

theorem lock_own : (ledger.lock l).own r = ledger.own r + ref (some l) r :=
  update_add_one ledger.own l r

theorem entrust_own :
    (ledger.entrust l).own r = ledger.own r - ref (some l) r :=
  update_sub_one ledger.own l r

theorem entrust_entrusted : (ledger.entrust l).entrusted r =
    ledger.entrusted r + ref (some l) r :=
  update_add_one ledger.entrusted l r

theorem unlock_held :
    (ledger.unlock l).held r = ledger.held r - ref (some l) r :=
  update_sub_one ledger.held l r

theorem unlock_released :
    (ledger.unlock l).released r = ledger.released r + ref (some l) r :=
  update_add_one ledger.released l r

end Ledger

/-! ## The members of the guards -/

def State.declare (s : State M R) (cls : GuardClass)
    (ptr : Option (LockObject M R)) : Code (State M R) :=
  match s.scopes with
  | [] => .error .blocked
  | scope :: rest => .ok { s with
      scopes := (s.next :: scope) :: rest
      next := s.next + 1
      cls := Function.update s.cls s.next cls
      ptr := Function.update s.ptr s.next ptr }

/-- The constructor; that of `AutoUnlock` wants the mutex locked before. -/
def construct (s : State M R) (cls : GuardClass) (lock : LockObject M R) :
    Code (State M R) :=
  if !cls.guards lock then .error .blocked
  else if cls.acquires then
    State.declare { s with ledger := (s.ledger.lock lock).entrust lock } cls
      (some lock)
  else if s.ledger.own lock = 0 then .error .blocked
  else
    State.declare { s with ledger := s.ledger.entrust lock } cls (some lock)

def unlock (build : Build) (s : State M R) (guard : ℕ) : Code (State M R) := do
  build.assert (s.ptr guard).isSome
  let lock ← deref (s.ptr guard)
  return { s with
    ledger := s.ledger.unlock lock
    ptr := Function.update s.ptr guard none }

def destruct (s : State M R) (guard : ℕ) : State M R :=
  match s.ptr guard with
  | none => s
  | some lock => { s with ledger := s.ledger.unlock lock }

def leave (s : State M R) : Code (State M R) :=
  match s.scopes with
  | [] => .error .blocked
  | scope :: rest => .ok { scope.foldl destruct s with scopes := rest }

def leaveAll : List (List ℕ) → State M R → State M R
  | [], s => s
  | scope :: rest, s =>
      leaveAll rest { scope.foldl destruct s with scopes := rest }

def exec (build : Build) (s : State M R) : Action M R → Code (State M R)
  | .enter => .ok { s with scopes := [] :: s.scopes }
  | .leave => leave s
  | .lock mutex => .ok { s with ledger := s.ledger.lock mutex }
  | .construct cls mutex => construct s cls mutex
  | .copy src =>
      if src ∈ s.live ∧ (s.cls src).copyConstructible then
        s.declare (s.cls src) (s.ptr src)
      else .error .blocked
  | .assign dst src =>
      if dst ∈ s.live ∧ src ∈ s.live ∧ s.cls dst = s.cls src ∧
          (s.cls dst).assignable then
        .ok { s with ptr := Function.update s.ptr dst (s.ptr src) }
      else .error .blocked
  | .unlock guard =>
      if guard ∈ s.live ∧ s.ptr guard ≠ none then unlock build s guard
      else .error .blocked

def system (M R : Type) [DecidableEq M] [DecidableEq R] (build : Build) :
    System (State M R) (Action M R) :=
  .ofFunction (fun s => s = initial M R) (exec build)

/-- Once all scopes are left, each acquisition in the care of a guard was
released once, and nothing was that was not held. -/
def Balanced (s : State M R) : Prop :=
  (leaveAll s.scopes s).ledger.violated = false ∧
    ∀ l, (leaveAll s.scopes s).ledger.released l =
      (leaveAll s.scopes s).ledger.entrusted l

/-- A copy or an assignment leaves every guard with the pointer it had. -/
def Harmless (s : State M R) : Action M R → Prop
  | .copy src => s.ptr src = none
  | .assign dst src => s.ptr dst = s.ptr src
  | _ => True

instance (s : State M R) (a : Action M R) : Decidable (Harmless s a) := by
  cases a <;> unfold Harmless <;> infer_instance

/-! ## What the destructors do -/

section Destructors

variable {ι L : Type} [DecidableEq L]

def settle (ptr : ι → Option L) (ledger : Ledger L) (guard : ι) : Ledger L :=
  (ptr guard).elim ledger ledger.unlock

variable (ptr : ι → Option L) (guards : List ι) (ledger : Ledger L)

theorem settle_released (r : L) :
    (guards.foldl (settle ptr) ledger).released r =
      ledger.released r + refs guards ptr r := by
  induction guards generalizing ledger with
  | nil => rfl
  | cons g guards ih =>
      rw [List.foldl_cons, ih, refs_cons]
      cases hptr : ptr g with
      | none => simp [settle, hptr]
      | some l =>
          rw [settle, hptr, Option.elim_some, Ledger.unlock_released]
          omega

theorem settle_held (r : L) : (guards.foldl (settle ptr) ledger).held r =
    ledger.held r - refs guards ptr r := by
  induction guards generalizing ledger with
  | nil => rfl
  | cons g guards ih =>
      rw [List.foldl_cons, ih, refs_cons]
      cases hptr : ptr g with
      | none => simp [settle, hptr]
      | some l =>
          rw [settle, hptr, Option.elim_some, Ledger.unlock_held]
          omega

theorem settle_same :
    (guards.foldl (settle ptr) ledger).own = ledger.own ∧
      (guards.foldl (settle ptr) ledger).entrusted = ledger.entrusted := by
  induction guards generalizing ledger with
  | nil => exact ⟨rfl, rfl⟩
  | cons g guards ih =>
      rw [List.foldl_cons, (ih _).1, (ih _).2]
      cases hptr : ptr g <;> simp [settle, hptr, Ledger.unlock]

theorem settle_lawful (lawful : ledger.violated = false)
    (held : ∀ r, refs guards ptr r ≤ ledger.held r) :
    (guards.foldl (settle ptr) ledger).violated = false := by
  induction guards generalizing ledger with
  | nil => exact lawful
  | cons g guards ih =>
      rw [List.foldl_cons]
      cases hptr : ptr g with
      | none =>
          apply ih
          · simpa [settle, hptr] using lawful
          · intro r
            have hr := held r
            rw [refs_cons] at hr
            simp [settle, hptr]
            omega
      | some l =>
          apply ih
          · have hl := held l
            rw [refs_cons, hptr, ref_self] at hl
            have hne : ledger.held l ≠ 0 := by omega
            simp [settle, hptr, Ledger.unlock, lawful, hne]
          · intro r
            have hr := held r
            rw [refs_cons, hptr] at hr
            rw [settle, hptr, Option.elim_some, Ledger.unlock_held]
            omega

end Destructors

theorem destructs_eq (scope : List ℕ) (s : State M R) :
    scope.foldl destruct s =
      { s with ledger := scope.foldl (settle s.ptr) s.ledger } := by
  induction scope generalizing s with
  | nil => rfl
  | cons g scope ih =>
      have hfirst : destruct s g = { s with ledger := settle s.ptr s.ledger g } := by
        unfold destruct settle
        cases s.ptr g <;> rfl
      rw [List.foldl_cons, ih, hfirst]
      rfl

theorem leaveAll_ledger (scopes : List (List ℕ)) (s : State M R) :
    (leaveAll scopes s).ledger =
      scopes.flatten.foldl (settle s.ptr) s.ledger := by
  induction scopes generalizing s with
  | nil => rfl
  | cons scope rest ih =>
      rw [leaveAll, ih, destructs_eq, List.flatten_cons, List.foldl_append]

theorem Balanced.released {s : State M R} (h : Balanced s)
    (r : LockObject M R) : s.ledger.released r + refs s.live s.ptr r =
      s.ledger.entrusted r := by
  have hr := h.2 r
  rw [leaveAll_ledger, settle_released, (settle_same _ _ _).2] at hr
  exact hr

/-! ## Every guard answers for one acquisition -/

structure Accounted (s : State M R) : Prop where
  numbered : Numbered s.live s.next
  released : ∀ r, s.ledger.released r + refs s.live s.ptr r =
    s.ledger.entrusted r
  held : ∀ r, s.ledger.held r = s.ledger.own r + refs s.live s.ptr r
  lawful : s.ledger.violated = false

namespace Accounted

variable {s s' : State M R}

theorem balanced (h : Accounted s) : Balanced s := by
  unfold Balanced
  rw [leaveAll_ledger]
  constructor
  · apply settle_lawful _ _ _ h.lawful
    intro r
    rw [h.held]
    exact Nat.le_add_left _ _
  · intro r
    rw [settle_released, (settle_same _ _ _).2]
    exact h.released r

theorem initial : Accounted (initial M R) :=
  ⟨.empty, fun _ => rfl, fun _ => rfl, rfl⟩

end Accounted

omit [DecidableEq M] [DecidableEq R] in
theorem declare_ok {s s' : State M R} {cls : GuardClass}
    {ptr : Option (LockObject M R)} (h : s.declare cls ptr = .ok s') :
    s'.ledger = s.ledger ∧ s'.live = s.next :: s.live ∧
      s'.next = s.next + 1 ∧ s'.ptr = Function.update s.ptr s.next ptr := by
  unfold State.declare at h
  split at h
  case h_1 => cases h
  case h_2 scope rest hscopes =>
    cases h
    simp [State.live, hscopes]

namespace Accounted

variable {s s' : State M R}

theorem declare (h : Accounted s) (ledger : Ledger (LockObject M R))
    {cls : GuardClass} {ptr : Option (LockObject M R)}
    (hdeclare : State.declare { s with ledger := ledger } cls ptr = .ok s')
    (released : ledger.released = s.ledger.released)
    (entrusted : ∀ r, ledger.entrusted r = s.ledger.entrusted r + ref ptr r)
    (held : ∀ r, ledger.held r + s.ledger.own r =
      s.ledger.held r + ledger.own r + ref ptr r)
    (lawful : ledger.violated = false) : Accounted s' := by
  obtain ⟨hledger, hlive, hnext, hptr⟩ := declare_ok hdeclare
  have hlive : s'.live = s.next :: s.live := hlive
  have hrefs (r : LockObject M R) :
      refs s'.live s'.ptr r = refs s.live s.ptr r + ref ptr r := by
    rw [hlive, hptr]
    exact refs_create _ _ _ h.numbered.notMem
  constructor
  · rw [hlive, hnext]
    exact h.numbered.create
  · intro r
    rw [hledger, hrefs]
    dsimp only
    rw [released, entrusted, ← h.released]
    omega
  · intro r
    have hbefore := h.held r
    have hr := held r
    rw [hledger, hrefs]
    dsimp only
    omega
  · rw [hledger]
    exact lawful

theorem construct (h : Accounted s) {cls : GuardClass}
    {lock : LockObject M R} (hstep : construct s cls lock = .ok s') :
    Accounted s' := by
  unfold Guard.construct at hstep
  split at hstep
  case isTrue => cases hstep
  case isFalse =>
    split at hstep
    case isTrue =>
      refine h.declare _ hstep rfl (fun r => ?_) (fun r => ?_) h.lawful
      · exact Ledger.entrust_entrusted _ lock r
      · have hheld := s.ledger.lock_held lock r
        rw [Ledger.entrust_own, Ledger.lock_own]
        change (s.ledger.lock lock).held r + _ = _
        omega
    case isFalse =>
      split at hstep
      case isTrue => cases hstep
      case isFalse hown =>
        have hle (r : LockObject M R) :
            ref (some lock) r ≤ s.ledger.own r := by
          by_cases hr : lock = r
          · subst hr
            rw [ref_self]
            omega
          · simp [ref, hr]
        refine h.declare _ hstep rfl (fun r => ?_) (fun r => ?_) h.lawful
        · exact Ledger.entrust_entrusted _ lock r
        · have hr := hle r
          rw [Ledger.entrust_own]
          change s.ledger.held r + _ = _
          omega

theorem unlock (h : Accounted s) {build : Build} {guard : ℕ}
    (hlive : guard ∈ s.live) (hstep : unlock build s guard = .ok s') :
    Accounted s' := by
  obtain ⟨-, -, hstep⟩ := Code.bind_eq_ok.mp hstep
  cases hptr : s.ptr guard with
  | none =>
      rw [hptr] at hstep
      cases hstep
  | some lock =>
      rw [hptr, deref_some, Code.ok_bind] at hstep
      cases hstep
      have hrefs (r : LockObject M R) :
          refs s.live (Function.update s.ptr guard none) r +
            ref (some lock) r = refs s.live s.ptr r := by
        have hupdate := refs_update s.ptr none r
          h.numbered.nodup hlive
        rwa [hptr, ref_none, Nat.add_zero] at hupdate
      constructor
      · exact h.numbered
      · intro r
        have hreleased := h.released r
        have hr := hrefs r
        change (s.ledger.unlock lock).released r +
          refs s.live (Function.update s.ptr guard none) r =
            s.ledger.entrusted r
        rw [Ledger.unlock_released]
        omega
      · intro r
        have hheld := h.held r
        have hr := hrefs r
        change (s.ledger.unlock lock).held r = s.ledger.own r +
          refs s.live (Function.update s.ptr guard none) r
        rw [Ledger.unlock_held]
        omega
      · have hheld := h.held lock
        have hr := hrefs lock
        rw [ref_self] at hr
        have hne : s.ledger.held lock ≠ 0 := by omega
        simp [Ledger.unlock, h.lawful, hne]

theorem leave (h : Accounted s) (hstep : leave s = .ok s') :
    Accounted s' := by
  unfold Guard.leave at hstep
  split at hstep
  case h_1 => cases hstep
  case h_2 scope rest hscopes =>
    cases hstep
    have hlive : s.live = scope ++ rest.flatten := by
      rw [State.live, hscopes, List.flatten_cons]
    have hrefs (r : LockObject M R) : refs s.live s.ptr r =
        refs scope s.ptr r + refs rest.flatten s.ptr r := by
      rw [hlive, refs_append]
    rw [destructs_eq]
    constructor
    · apply h.numbered.sublist
      rw [hlive]
      exact List.sublist_append_right scope rest.flatten
    · intro r
      have hreleased := h.released r
      have hr := hrefs r
      rw [settle_released, (settle_same _ _ _).2]
      change _ + _ + refs rest.flatten s.ptr r = _
      omega
    · intro r
      have hheld := h.held r
      have hr := hrefs r
      rw [settle_held, (settle_same _ _ _).1]
      change _ = _ + refs rest.flatten s.ptr r
      omega
    · apply settle_lawful _ _ _ h.lawful
      intro r
      have hheld := h.held r
      have hr := hrefs r
      omega

theorem redirect (h : Accounted s) {guard : ℕ} {ptr : Option (LockObject M R)}
    (same : s.ptr guard = ptr) :
    Accounted { s with ptr := Function.update s.ptr guard ptr } := by
  rw [← same, Function.update_eq_self]
  exact h

theorem step (h : Accounted s) {build : Build} {a : Action M R}
    (harmless : Harmless s a) (hstep : exec build s a = .ok s') :
    Accounted s' := by
  cases a with
  | enter =>
      cases hstep
      exact ⟨h.numbered, h.released, h.held, h.lawful⟩
  | leave => exact h.leave hstep
  | lock mutex =>
      cases hstep
      refine ⟨h.numbered, h.released, fun r => ?_, h.lawful⟩
      have hr := h.held r
      have hown := s.ledger.lock_own mutex r
      change (s.ledger.lock mutex).held r =
        (s.ledger.lock mutex).own r + refs s.live s.ptr r
      rw [Ledger.lock_held]
      omega
  | construct cls mutex => exact h.construct hstep
  | copy src =>
      rw [exec] at hstep
      split at hstep
      case isFalse => cases hstep
      case isTrue =>
        rw [show s.ptr src = none from harmless] at hstep
        refine h.declare s.ledger hstep rfl (fun r => ?_) (fun r => ?_) h.lawful
        · rw [ref_none, Nat.add_zero]
        · rw [ref_none, Nat.add_zero]
  | assign dst src =>
      rw [exec] at hstep
      split at hstep
      case isFalse => cases hstep
      case isTrue =>
        cases hstep
        exact h.redirect harmless
  | unlock guard =>
      rw [exec] at hstep
      split at hstep
      case isFalse => cases hstep
      case isTrue hguard => exact h.unlock hguard.1 hstep

theorem harmless (h : Accounted s) {build : Build} {a : Action M R}
    (hstep : exec build s a = .ok s') (balanced : Balanced s') :
    Harmless s a := by
  cases a with
  | copy src =>
      rw [exec] at hstep
      split at hstep
      case isFalse => cases hstep
      case isTrue =>
        obtain ⟨hledger, hlive, -, hptr⟩ := declare_ok hstep
        apply ref_injective
        funext r
        have hafter := balanced.released r
        have hbefore := h.released r
        rw [hledger, hlive, hptr, refs_create _ _ _ h.numbered.notMem] at hafter
        rw [ref_none]
        omega
  | assign dst src =>
      rw [exec] at hstep
      split at hstep
      case isFalse => cases hstep
      case isTrue hguards =>
        cases hstep
        apply ref_injective
        funext r
        have hafter := balanced.released r
        have hbefore := h.released r
        have hrefs := refs_update s.ptr (s.ptr src) r
          h.numbered.nodup hguards.1
        change _ + refs s.live (Function.update s.ptr dst (s.ptr src)) r = _
          at hafter
        dsimp only at hafter
        omega
  | _ => trivial

end Accounted

theorem guards_balanced_iff {build : Build}
    {tr : History (State M R) (Action M R)} {s : State M R}
    (run : (system M R build).Exec tr s) :
    (∀ y ∈ visited tr s, Balanced y) ↔ Meets Harmless tr := by
  refine run.safe_iff_meets (I := Accounted) ?_ (fun h => h.balanced) ?_
  · constructor
    · rintro s rfl
      exact .initial
    · rintro s a s' h ⟨harmless, hstep⟩
      exact h.step harmless hstep
  · rintro s a s' h hstep harmful balanced
    exact harmful (h.harmless hstep balanced)

theorem guards_balanced_three :
    ∃ tr s, (system (Fin 2) (Fin 1) ⟨true, true⟩).Exec tr s ∧
      (s.scopes = [] ∧ Meets Harmless tr ∧
        [.mutex 0, .mutex 1, .rwlock 0].map s.ledger.released = [1, 1, 2]) ∧
      ((∀ y ∈ visited tr s, Balanced y) ↔ Meets Harmless tr) := by
  obtain ⟨tr, s, run, htest⟩ : ∃ tr s,
      (system (Fin 2) (Fin 1) ⟨true, true⟩).Exec tr s ∧
      decide (s.scopes = [] ∧ Meets Harmless tr ∧
        [.mutex 0, .mutex 1, .rwlock 0].map s.ledger.released = [1, 1, 2]) =
        true :=
    Exec.ofRecord (exec ⟨true, true⟩) (initial (Fin 2) (Fin 1))
      [.enter, .construct .autoLock (.mutex 0), .lock (.mutex 1), .enter,
        .construct .autoUnlock (.mutex 1),
        .construct .autoReadLock (.rwlock 0), .unlock 2, .copy 2, .assign 3 2,
        .construct .autoReadLock (.rwlock 0), .assign 4 4, .leave, .leave]
      (fun r => decide (r.2.scopes = [] ∧ Meets Harmless r.1 ∧
        [.mutex 0, .mutex 1, .rwlock 0].map r.2.ledger.released = [1, 1, 2]))
      rfl (by decide)
  exact ⟨tr, s, run, of_decide_eq_true htest, guards_balanced_iff run⟩

def ReleasedTwice (cls : GuardClass) (first second : LockObject M R)
    (s : State M R) : Prop :=
  s.cls 0 = cls ∧ s.cls 1 = cls ∧ s.scopes = [] ∧ s.ledger.violated = true ∧
    s.ledger.entrusted first = 1 ∧ s.ledger.released first = 0 ∧
    s.ledger.entrusted second = 1 ∧ s.ledger.released second = 2

instance (cls : GuardClass) (first second : LockObject M R) (s : State M R) :
    Decidable (ReleasedTwice cls first second s) :=
  inferInstanceAs (Decidable (_ ∧ _))

def Unbalances (cls : GuardClass) : Prop :=
  ∃ first second tr s, (system (Fin 2) (Fin 2) defaultBuild).Exec tr s ∧
    ReleasedTwice cls first second s ∧ ¬ Balanced s

theorem assign_unbalances {cls : GuardClass} (before : List (Action (Fin 2) (Fin 2)))
    (first second : LockObject (Fin 2) (Fin 2))
    (h : (System.record (exec defaultBuild)
      (before ++ [.enter, .construct cls first, .construct cls second,
        .assign 0 1, .leave]) [] (initial (Fin 2) (Fin 2))).map
      (fun r => decide (ReleasedTwice cls first second r.2)) = .ok true) :
    Unbalances cls := by
  obtain ⟨tr, s, run, htest⟩ : ∃ tr s,
      (system (Fin 2) (Fin 2) defaultBuild).Exec tr s ∧
      decide (ReleasedTwice cls first second s) = true :=
    Exec.ofRecord _ _ _ (fun r => decide (ReleasedTwice cls first second r.2))
      rfl h
  have twice : ReleasedTwice cls first second s := of_decide_eq_true htest
  refine ⟨first, second, tr, s, run, twice, fun balanced => ?_⟩
  obtain ⟨-, -, hscopes, -, -, -, hentrusted, hreleased⟩ := twice
  have hend := balanced.released second
  rw [State.live, hscopes, List.flatten_nil, refs_nil, hentrusted,
    hreleased] at hend
  omega

theorem guards_unbalanced :
    (Unbalances .autoLock ∧ Unbalances .autoUnlock) ∧
      Unbalances .autoReadLock ∧ Unbalances .autoWriteLock := by
  refine ⟨⟨?_, ?_⟩, ?_, ?_⟩
  · exact assign_unbalances [] (.mutex 0) (.mutex 1) (by decide)
  · exact assign_unbalances [.lock (.mutex 0), .lock (.mutex 1)] (.mutex 0)
      (.mutex 1) (by decide)
  · exact assign_unbalances [] (.rwlock 0) (.rwlock 1) (by decide)
  · exact assign_unbalances [] (.rwlock 0) (.rwlock 1) (by decide)

end Iocore.Guard
