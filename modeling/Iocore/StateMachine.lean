import Iocore.Defs
import Iocore.Foundation.Masks

/-!
# State machines over bit-encoded states

`StateMachine` keeps one of up to 32 states as a value with a single bit set,
and takes sets of states as values with several.  Over any such encoding it is
the automaton that moves from one set of states to a state.  The value 0
encodes no state and is in no set, so it is left only by the `MoveTo` that
takes no set.
-/

namespace Iocore

open Foundation

structure StateMachine where
  state : UInt32
  deriving DecidableEq, Repr

namespace StateMachine

section Members

variable (build : Build) (s : StateMachine)

/-- `MoveTo(to, from)` -/
def moveToFrom (target source : UInt32) : Code (Bool × StateMachine) := do
  build.assert (source ≠ 0)
  if s.state &&& source ≠ 0 then return (true, { s with state := target })
  else return (false, s)

/-- `MoveTo(to)` -/
def moveTo (target : UInt32) : Code (UInt32 × StateMachine) := do
  build.assert (s.state = 0)
  build.assert (target ≠ 0)
  let old := s.state
  return (old, { s with state := target })

def is (states : UInt32) : Code Bool := do
  build.assert (states ≠ 0)
  return s.state &&& states ≠ 0

end Members

/-! ## The automaton -/

section Automaton

variable (α : Type)

abbrev States := { S : Finset α // S.Nonempty }

inductive Call where
  | moveTo (target : α) (source : States α)
  | is (states : States α)

end Automaton

variable {α : Type} [DecidableEq α]

def next (q : α) : Call α → Bool × α
  | .moveTo target source =>
      if q ∈ source.val then (true, target) else (false, q)
  | .is states => (q ∈ states.val, q)

def automaton : α → List (Call α) → List Bool × α
  | q, [] => ([], q)
  | q, call :: calls =>
      let (answer, q) := next q call
      let (answers, q) := automaton q calls
      (answer :: answers, q)

/-! ## The object that stands for it -/

structure Encoding (α : Type) where
  code : α → UInt32
  single : ∀ a, ∃ i < 32, (code a).toNat = 2 ^ i
  injective : Function.Injective code

namespace Encoding

variable (e : Encoding α)

def mask (S : Finset α) : UInt32 := S.fold (· ||| ·) 0 e.code

omit [DecidableEq α] in
theorem mask_toNat (S : Finset α) :
    (e.mask S).toNat = Masks.mask (fun a => (e.code a).toNat) S :=
  (Finset.fold_hom UInt32.toNat_or).symm

omit [DecidableEq α] in
theorem singleBits : Masks.SingleBits fun a => (e.code a).toNat := by
  intro a
  obtain ⟨i, -, hi⟩ := e.single a
  exact ⟨i, hi⟩

omit [DecidableEq α] in
theorem toNat_injective : Function.Injective fun a => (e.code a).toNat :=
  fun _ _ h => e.injective (UInt32.toNat_inj.mp h)

theorem and_mask_ne_zero (a : α) (S : Finset α) :
    e.code a &&& e.mask S ≠ 0 ↔ a ∈ S := by
  rw [← Masks.and_mask_ne_zero e.singleBits e.toNat_injective, ← mask_toNat,
    ← UInt32.toNat_and, ne_eq, ← UInt32.toNat_inj]
  rfl

theorem mask_ne_zero {S : Finset α} (h : S.Nonempty) : e.mask S ≠ 0 := by
  intro hzero
  apply Masks.mask_ne_zero e.singleBits e.toNat_injective h
  rw [← mask_toNat, hzero]
  rfl

omit [DecidableEq α] in
theorem code_ne_zero (a : α) : e.code a ≠ 0 := by
  intro hzero
  obtain ⟨i, -, hi⟩ := e.single a
  rw [hzero] at hi
  exact (Nat.two_pow_pos i).ne hi

end Encoding

def perform (build : Build) (e : Encoding α) (s : StateMachine) :
    Call α → Code (Bool × StateMachine)
  | .moveTo target source =>
      s.moveToFrom build (e.code target) (e.mask source.val)
  | .is states => do
      let answer ← s.is build (e.mask states.val)
      return (answer, s)

def performAll (build : Build) (e : Encoding α) :
    StateMachine → List (Call α) → Code (List Bool × StateMachine)
  | s, [] => .ok ([], s)
  | s, call :: calls => do
      let (answer, s) ← perform build e s call
      let (answers, s) ← performAll build e s calls
      return (answer :: answers, s)

variable (build : Build) (e : Encoding α)

theorem perform_code (q : α) (call : Call α) :
    perform build e ⟨e.code q⟩ call =
      .ok ((next q call).1, ⟨e.code (next q call).2⟩) := by
  cases call with
  | moveTo target source =>
      have hsource := decide_eq_true (e.mask_ne_zero source.property)
      rw [perform, moveToFrom, hsource, Build.assert_true, Code.ok_bind, next]
      by_cases hin : q ∈ source.val
      · rw [if_pos ((e.and_mask_ne_zero q source.val).mpr hin), if_pos hin]
        rfl
      · rw [if_neg fun h => hin ((e.and_mask_ne_zero q source.val).mp h),
          if_neg hin]
        rfl
  | is states =>
      have hstates := decide_eq_true (e.mask_ne_zero states.property)
      have hanswer : decide (e.code q &&& e.mask states.val ≠ 0) =
          decide (q ∈ states.val) :=
        decide_eq_decide.mpr (e.and_mask_ne_zero q states.val)
      rw [perform, is, hstates, Build.assert_true, Code.ok_bind, hanswer]
      rfl

theorem performAll_code (q : α) (calls : List (Call α)) :
    performAll build e ⟨e.code q⟩ calls =
      .ok ((automaton q calls).1, ⟨e.code (automaton q calls).2⟩) := by
  induction calls generalizing q with
  | nil => rfl
  | cons call calls ih =>
      rw [performAll, perform_code, Code.ok_bind]
      dsimp only
      rw [ih, Code.ok_bind]
      rfl

theorem perform_zero (call : Call α) :
    perform build e ⟨0⟩ call = .ok (false, ⟨0⟩) := by
  cases call with
  | moveTo target source =>
      have hsource := decide_eq_true (e.mask_ne_zero source.property)
      rw [perform, moveToFrom, hsource, Build.assert_true, Code.ok_bind,
        if_neg fun h => h UInt32.zero_and]
      rfl
  | is states =>
      have hstates := decide_eq_true (e.mask_ne_zero states.property)
      rw [perform, is, hstates, Build.assert_true, Code.ok_bind,
        UInt32.zero_and]
      rfl

theorem performAll_zero (calls : List (Call α)) :
    performAll build e ⟨0⟩ calls =
      .ok (List.replicate calls.length false, ⟨0⟩) := by
  induction calls with
  | nil => rfl
  | cons call calls ih =>
      rw [performAll, perform_zero, Code.ok_bind]
      dsimp only
      rw [ih, Code.ok_bind]
      rfl

omit [DecidableEq α] in
theorem moveTo_zero (target : α) :
    moveTo build ⟨0⟩ (e.code target) = .ok (0, ⟨e.code target⟩) := by
  rw [moveTo, decide_eq_true (e.code_ne_zero target), decide_eq_true rfl,
    Build.assert_true, Code.ok_bind, Code.ok_bind]
  rfl

theorem stateMachine_simulates :
    (∀ q calls, performAll build e ⟨e.code q⟩ calls =
      .ok ((automaton q calls).1, ⟨e.code (automaton q calls).2⟩)) ∧
    ∀ before target calls,
      performAll build e ⟨0⟩ before =
          .ok (List.replicate before.length false, ⟨0⟩) ∧
        moveTo build ⟨0⟩ (e.code target) = .ok (0, ⟨e.code target⟩) ∧
        performAll build e ⟨e.code target⟩ calls =
          .ok ((automaton target calls).1,
            ⟨e.code (automaton target calls).2⟩) :=
  ⟨performAll_code build e, fun before target calls =>
    ⟨performAll_zero build e before, moveTo_zero build e target,
      performAll_code build e target calls⟩⟩

end StateMachine

end Iocore
