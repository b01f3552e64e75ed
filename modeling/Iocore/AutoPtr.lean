import Iocore.Defs
import Iocore.Foundation.References
import Iocore.Foundation.System

/-!
# Ownership of heap objects by `AutoPtr`

`operator=` takes the object away from its right side, and asserts that the
left side has none.  So an object has one holder until that is destroyed, and
is deleted with it.  Objects and pointers are numbered in the order of their
creation; the heap counts how often each object was deleted.
-/

namespace Iocore.AutoPtr

open Foundation Foundation.System

structure State where
  live : List ℕ
  next : ℕ
  ptr : ℕ → Option ℕ
  allocated : ℕ
  deleted : ℕ → ℕ

/-- What a program does: `construct fresh` passes `new T` or nothing. -/
inductive Action where
  | construct (fresh : Bool)
  | assign (lhs rhs : ℕ)
  | destruct (a : ℕ)
  deriving DecidableEq, Repr

def initial : State := ⟨[], 0, fun _ => none, 0, fun _ => 0⟩

def construct (s : State) (ptr : Option ℕ) : State :=
  { s with
    live := s.next :: s.live
    next := s.next + 1
    ptr := Function.update s.ptr s.next ptr }

def allocate (s : State) : ℕ × State :=
  (s.allocated, { s with allocated := s.allocated + 1 })

def assign (build : Build) (s : State) (lhs rhs : ℕ) : Code State := do
  build.assert (s.ptr lhs).isNone
  let ptr := Function.update s.ptr lhs (s.ptr rhs)
  let ptr := Function.update ptr rhs none
  return { s with ptr := ptr }

def delete (s : State) (object : ℕ) : State :=
  { s with
    deleted := Function.update s.deleted object (s.deleted object + 1) }

def destruct (s : State) (a : ℕ) : State :=
  let s := match s.ptr a with
    | none => s
    | some object =>
        { delete s object with ptr := Function.update s.ptr a none }
  { s with live := s.live.erase a }

/-- A program uses pointers that exist, and assigns to those that are empty. -/
def exec (build : Build) (s : State) : Action → Code State
  | .construct false => .ok (construct s none)
  | .construct true =>
      let (object, s) := allocate s
      .ok (construct s (some object))
  | .assign lhs rhs =>
      if lhs ∈ s.live ∧ rhs ∈ s.live ∧ s.ptr lhs = none then
        assign build s lhs rhs
      else .error .blocked
  | .destruct a =>
      if a ∈ s.live then .ok (destruct s a) else .error .blocked

def system (build : Build) : System State Action :=
  .ofFunction (fun s => s = initial) (exec build)

theorem destruct_eq (s : State) (a : ℕ) : destruct s a = { s with
    live := s.live.erase a
    ptr := Function.update s.ptr a none
    deleted := fun object => s.deleted object + ref (s.ptr a) object } := by
  unfold destruct
  cases hptr : s.ptr a with
  | none =>
      have hsame : Function.update s.ptr a none = s.ptr := by
        rw [← hptr, Function.update_eq_self]
      simp [hsame]
  | some object =>
      have hdeleted : (delete s object).deleted =
          fun other => s.deleted other + ref (some object) other :=
        funext fun other => update_add_one s.deleted object other
      simp only [hdeleted]
      rfl

theorem assign_eq (build : Build) (s : State) {lhs : ℕ} (rhs : ℕ)
    (empty : s.ptr lhs = none) : assign build s lhs rhs = .ok { s with
      ptr := Function.update (Function.update s.ptr lhs (s.ptr rhs)) rhs
        none } := by
  rw [assign, empty, Option.isNone_none, Build.assert_true]
  rfl

def holders (s : State) (object : ℕ) : ℕ := refs s.live s.ptr object

/-! ## Every object has one holder or was deleted once -/

structure Owned (s : State) : Prop where
  numbered : Numbered s.live s.next
  balance : ∀ object, holders s object + s.deleted object =
    if object < s.allocated then 1 else 0

namespace Owned

variable {s : State}

theorem initial : Owned initial := ⟨.empty, fun _ => rfl⟩

theorem construct (h : Owned s) {ptr : Option ℕ} {allocated : ℕ}
    (balance : ∀ object, holders s object + ref ptr object + s.deleted object =
      if object < allocated then 1 else 0) :
    Owned { construct s ptr with allocated := allocated } where
  numbered := h.numbered.create
  balance object := by
    have hcreate : holders { AutoPtr.construct s ptr with
        allocated := allocated } object = holders s object + ref ptr object :=
      refs_create _ _ _ h.numbered.notMem
    rw [hcreate]
    exact balance object

theorem constructNull (h : Owned s) : Owned (AutoPtr.construct s none) :=
  h.construct fun object => by rw [ref_none]; exact h.balance object

theorem constructFresh (h : Owned s) :
    Owned (AutoPtr.construct (allocate s).2 (some (allocate s).1)) := by
  refine h.construct fun object => ?_
  have hbefore := h.balance object
  change holders s object + ref (some s.allocated) object +
    s.deleted object = if object < s.allocated + 1 then 1 else 0
  by_cases hnew : object = s.allocated
  · subst hnew
    rw [if_neg (Nat.lt_irrefl _)] at hbefore
    rw [ref_self, if_pos (Nat.lt_succ_self _)]
    omega
  · have hother : ref (some s.allocated) object = 0 := by
      simp [ref, Ne.symm hnew]
    have hsame : object < s.allocated + 1 ↔ object < s.allocated := by omega
    rw [hother, Nat.add_zero, hbefore]
    simp only [hsame]

theorem assign (h : Owned s) {lhs rhs : ℕ} (hlhs : lhs ∈ s.live)
    (hrhs : rhs ∈ s.live) (empty : s.ptr lhs = none) :
    Owned { s with ptr :=
      Function.update (Function.update s.ptr lhs (s.ptr rhs)) rhs none } where
  numbered := h.numbered
  balance object := by
    have hkept : Function.update s.ptr lhs (s.ptr rhs) rhs = s.ptr rhs := by
      by_cases hself : rhs = lhs
      · rw [hself, Function.update_self]
      · rw [Function.update_of_ne hself]
    have hgive := refs_update s.ptr (s.ptr rhs) object
      h.numbered.nodup hlhs
    have htake := refs_update (Function.update s.ptr lhs (s.ptr rhs)) none
      object h.numbered.nodup hrhs
    rw [empty, ref_none] at hgive
    rw [hkept, ref_none] at htake
    rw [← h.balance object]
    unfold holders
    dsimp only
    omega

theorem destruct (h : Owned s) {a : ℕ} (ha : a ∈ s.live) :
    Owned (AutoPtr.destruct s a) := by
  rw [destruct_eq]
  constructor
  · exact h.numbered.sublist List.erase_sublist
  · intro object
    have herase := refs_erase s.ptr object ha
    have hlast : holders { s with
        live := s.live.erase a
        ptr := Function.update s.ptr a none } object =
        refs (s.live.erase a) s.ptr object :=
      refs_update_of_notMem _ _ _ h.numbered.nodup.not_mem_erase
    rw [← h.balance object]
    change holders { s with
      live := s.live.erase a, ptr := Function.update s.ptr a none } object +
        (s.deleted object + ref (s.ptr a) object) = _
    rw [hlast]
    unfold holders
    omega

end Owned

theorem owned_inductive (build : Build) : (system build).Inductive Owned where
  init := by
    rintro s rfl
    exact .initial
  step {s a s'} h hstep := by
    change exec build s a = .ok s' at hstep
    cases a with
    | construct fresh =>
        cases fresh with
        | false =>
            cases hstep
            exact h.constructNull
        | true =>
            cases hstep
            exact h.constructFresh
    | assign lhs rhs =>
        rw [exec] at hstep
        split at hstep
        case isFalse => cases hstep
        case isTrue hlive =>
          obtain ⟨hlhs, hrhs, empty⟩ := hlive
          rw [assign_eq build s rhs empty] at hstep
          cases hstep
          exact h.assign hlhs hrhs empty
    | destruct a =>
        rw [exec] at hstep
        split at hstep
        case isFalse => cases hstep
        case isTrue ha =>
          cases hstep
          exact h.destruct ha

/-! ## What holds in every reachable state -/

structure UniquelyOwned (s : State) : Prop where
  held : ∀ object < s.allocated, s.deleted object = 0 →
    ∃! a, a ∈ s.live ∧ s.ptr a = some object
  alive : ∀ a ∈ s.live, ∀ object, s.ptr a = some object →
    object < s.allocated ∧ s.deleted object = 0
  once : ∀ object, s.deleted object ≤ 1
  released : s.live = [] → ∀ object < s.allocated, s.deleted object = 1

theorem Owned.uniquelyOwned {s : State} (h : Owned s) : UniquelyOwned s where
  held object hobject hkept := by
    have hbalance := h.balance object
    rw [if_pos hobject, hkept, Nat.add_zero] at hbalance
    exact existsUnique_of_refs_eq_one hbalance
  alive a ha object hptr := by
    have hbalance := h.balance object
    have hheld : ref (s.ptr a) object ≤ holders s object :=
      ref_le_refs _ _ ha
    rw [hptr, ref_self] at hheld
    split at hbalance
    case isTrue hobject => exact ⟨hobject, by omega⟩
    case isFalse => omega
  once object := by
    have hbalance := h.balance object
    split at hbalance <;> omega
  released hlive object hobject := by
    have hbalance := h.balance object
    rw [if_pos hobject, holders, hlive, refs_nil, Nat.zero_add] at hbalance
    exact hbalance

theorem autoPtrs_uniquelyOwned {build : Build} {tr : History State Action}
    {s : State} (run : (system build).Exec tr s) : UniquelyOwned s :=
  ((owned_inductive build).exec run).uniquelyOwned

theorem autoPtrs_uniquelyOwned_two :
    ∃ tr s, (system ⟨true, true⟩).Exec tr s ∧
      (s.live = [] ∧ s.allocated = 2 ∧ [0, 1].map s.deleted = [1, 1]) ∧
      UniquelyOwned s := by
  obtain ⟨tr, s, run, htest⟩ : ∃ tr s, (system ⟨true, true⟩).Exec tr s ∧
      decide (s.live = [] ∧ s.allocated = 2 ∧
        [0, 1].map s.deleted = [1, 1]) = true :=
    Exec.ofRecord (exec ⟨true, true⟩) initial
      [.construct true, .construct false, .construct false, .assign 1 1,
        .assign 1 0, .assign 2 1, .assign 0 2, .construct true, .assign 2 3,
        .destruct 0, .destruct 3, .destruct 1, .destruct 2]
      (fun r => decide (r.2.live = [] ∧ r.2.allocated = 2 ∧
        [0, 1].map r.2.deleted = [1, 1])) rfl (by decide)
  exact ⟨tr, s, run, of_decide_eq_true htest, autoPtrs_uniquelyOwned run⟩

end Iocore.AutoPtr
