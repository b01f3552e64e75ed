import Mathlib.Logic.Basic

/-!
# Build configuration and checks

The macros of `defs.h`.  `ASSERT` is compiled in only under `DEBUG_BUILD`;
`INVARIANT` always is.  A piece of code either returns, or stops: it blocks in
a lock, aborts in a check, dereferences `NULL`, or calls a library function
where its behaviour is not defined.
-/

namespace Iocore

universe u

structure Build where
  debugBuild : Bool
  errorCheck : Bool
  deriving DecidableEq, Repr

/-- The build of the CMake files: they define neither macro. -/
def defaultBuild : Build := ⟨false, false⟩

inductive Stop where
  | blocked
  | aborted
  | nullDereference
  | undefinedBehaviour
  deriving DecidableEq, Repr

abbrev Code := Except Stop

def Build.assert (build : Build) (condition : Bool) : Code Unit :=
  if build.debugBuild && !condition then .error .aborted else .ok ()

def invariant (condition : Bool) : Code Unit :=
  if condition then .ok () else .error .aborted

def deref {α : Type u} : Option α → Code α
  | none => .error .nullDereference
  | some target => .ok target

@[simp] theorem Build.assert_true (build : Build) :
    build.assert true = .ok () := by
  simp [Build.assert]

theorem Build.assert_eq_ok {build : Build} (debug : build.debugBuild = true)
    {condition : Bool} : build.assert condition = .ok () ↔ condition = true := by
  cases condition <;> simp [Build.assert, debug]

@[simp] theorem deref_some {α : Type u} (target : α) :
    deref (some target) = .ok target := rfl

@[simp] theorem Code.ok_bind {α β : Type u} (a : α) (f : α → Code β) :
    (Except.ok a >>= f : Code β) = f a := rfl

@[simp] theorem Code.error_bind {α β : Type u} (e : Stop) (f : α → Code β) :
    (Except.error e >>= f : Code β) = .error e := rfl

theorem Code.bind_eq_ok {α β : Type u} {x : Code α} {f : α → Code β} {b : β} :
    (x >>= f) = .ok b ↔ ∃ a, x = .ok a ∧ f a = .ok b := by
  cases x <;> simp

theorem Code.error_of_bind_pure {α β : Type u} {x : Code α} {f : α → β}
    {e : Stop} (h : (do let a ← x; return f a : Code β) = .error e) :
    x = .error e := by
  cases x with
  | ok a => cases h
  | error e =>
      cases h
      rfl

/-- Code that establishes `P`, unless it has to wait. -/
def Code.Safe {α : Type u} (code : Code α) (P : α → Prop) : Prop :=
  match code with
  | .ok a => P a
  | .error e => e = .blocked

theorem Code.Safe.of_ok {α : Type u} {code : Code α} {P : α → Prop} {a : α}
    (safe : code.Safe P) (h : code = .ok a) : P a := by
  subst h
  exact safe

theorem Code.Safe.of_error {α : Type u} {code : Code α} {P : α → Prop}
    {e : Stop} (safe : code.Safe P) (h : code = .error e) : e = .blocked := by
  subst h
  exact safe

theorem Code.safe_of_eq {α : Type u} {code : Code α} {P : α → Prop} {a : α}
    (h : code = .ok a) (ha : P a) : code.Safe P := by
  subst h
  exact ha

end Iocore
