import Iocore.Foundation.System
import Iocore.InList.Model

/-!
# Intrusive lists are sequences

One list first: each operation on a well-linked list runs all its checks
successfully and changes the sequence the list stands for as its name says.
Then a family of lists over one heap refines a family of sequences, in every
run of calls that respect the contract of `InListElement`: an element is
pushed while no list holds it and unlinked from the list that holds it.
-/

namespace Iocore.InList

open Foundation

variable {T : Type}

/-- The list stands for the sequence `xs`, head first. -/
def Holds (heap : Heap T) (list : InList T) (xs : List T) : Prop :=
  Linked heap.next heap.prev list.head list.tail xs

def AgreeOutside (xs : List T) (heap heap' : Heap T) : Prop :=
  ∀ y, y ∉ xs → heap'.next y = heap.next y ∧ heap'.prev y = heap.prev y

theorem unlink_eq [DecidableEq T] (build : Build) {heap : Heap T}
    {list : InList T} {t : T} (hprev : heap.prev t ≠ some t)
    (hnext : heap.next t ≠ some t) :
    unlink build heap list t = (do
      build.assert (list.head.isSome && list.tail.isSome)
      build.assert ((heap.prev t).isSome || list.head = some t)
      build.assert ((heap.next t).isSome || list.tail = some t)
      return (((heap.setNext (heap.prev t) (heap.next t)).setPrev (heap.next t)
          (heap.prev t)).clear t,
        ⟨if list.head = some t then heap.next t else list.head,
          if list.tail = some t then heap.prev t else list.tail⟩)) := by
  have hkeepNext : (heap.setNext (heap.prev t) (heap.next t)).next t =
      heap.next t := store_of_ne hprev
  have hkeepPrev : ((heap.setNext (heap.prev t) (heap.next t)).setPrev
      (heap.next t) (heap.prev t)).prev t = heap.prev t := store_of_ne hnext
  have hkept : ((heap.setNext (heap.prev t) (heap.next t)).setPrev
      (heap.next t) (heap.prev t)).next t = heap.next t := hkeepNext
  have hbetween : (heap.setNext (heap.prev t) (heap.next t)).prev t =
      heap.prev t := rfl
  simp only [unlink, hbetween, hkeepNext, hkeepPrev, hkept]
  by_cases hhead : list.head = some t <;> by_cases htail : list.tail = some t <;>
    simp only [hhead, htail, if_true, if_false]

namespace Holds

variable {heap heap' : Heap T} {list : InList T} {xs ys : List T}

theorem agreeOutside (h : Holds heap list xs)
    (hagree : AgreeOutside ys heap heap') (hdisjoint : ∀ x ∈ xs, x ∉ ys) :
    Holds heap' list xs :=
  h.congr (fun x hx => (hagree x (hdisjoint x hx)).1)
    fun x hx => (hagree x (hdisjoint x hx)).2

theorem head_isNone (h : Holds heap list xs) : list.head.isNone = xs.isEmpty := by
  rw [h.head_eq]
  cases xs <;> rfl

theorem tail_isNone (h : Holds heap list xs) : list.tail.isNone = xs.isEmpty := by
  rw [h.tail_eq]
  cases xs using List.reverseRecOn <;> simp

theorem isEmpty_eq (h : Holds heap list xs) : list.isEmpty = xs.isEmpty := by
  rw [InList.isEmpty, h.head_isNone, h.tail_isNone, Bool.and_self]

theorem nullLink_prev (h : Holds heap list xs) :
    nullLink heap.prev list.head = true := by
  cases xs with
  | nil =>
      rw [h.head_eq]
      rfl
  | cons x xs =>
      rw [h.head_eq]
      simp [nullLink, Linked.prev_eq [] xs h]

theorem nullLink_next (h : Holds heap list xs) :
    nullLink heap.next list.tail = true := by
  cases xs using List.reverseRecOn with
  | nil =>
      rw [h.tail_eq]
      rfl
  | append_singleton xs x =>
      rw [h.tail_eq]
      simp [nullLink, Linked.next_eq xs [] h]

private theorem head_eq_some_iff {before after : List T} {t : T}
    (h : Holds heap list (before ++ t :: after))
    (nodup : (before ++ t :: after).Nodup) :
    list.head = some t ↔ before = [] := by
  rw [h.head_eq]
  cases before with
  | nil => simp
  | cons x before =>
      have hne : x ≠ t := fun e => by simp [e] at nodup
      simp [hne]

private theorem tail_eq_some_iff {before after : List T} {t : T}
    (h : Holds heap list (before ++ t :: after))
    (nodup : (before ++ t :: after).Nodup) :
    list.tail = some t ↔ after = [] := by
  rw [h.tail_eq]
  cases after using List.reverseRecOn with
  | nil => simp
  | append_singleton after x =>
      have hne : x ≠ t := fun e =>
        (List.nodup_middle.mp nodup).notMem (by simp [e])
      have hlast : (before ++ t :: (after ++ [x])).getLast? = some x := by
        rw [← List.cons_append, ← List.append_assoc, List.getLast?_concat]
      simp [hlast, hne]

variable [DecidableEq T] (build : Build)

/-- `Push` looks at nothing but the links of the element and the two ends. -/
theorem push_eq {t : T} (h : Holds heap list xs) (hnext : heap.next t = none)
    (hprev : heap.prev t = none) :
    InList.push build heap list t =
      .ok ((heap.setNext (some t) list.head).setPrev list.head (some t),
        ⟨some t, list.tail.or (some t)⟩) := by
  have hends : (list.head.isNone && list.tail.isNone ||
      list.head.isSome && list.tail.isSome) = true := by
    rw [← Option.not_isNone, ← Option.not_isNone, h.head_isNone,
      h.tail_isNone]
    cases xs.isEmpty <;> rfl
  simp only [InList.push, hends, h.nullLink_prev, h.nullLink_next, hnext,
    hprev, Option.isNone_none, Build.assert_true, Code.ok_bind]
  cases htail : list.tail <;> rfl

theorem push {t : T} (h : Holds heap list xs) (nodup : xs.Nodup)
    (hfresh : t ∉ xs) (hnext : heap.next t = none)
    (hprev : heap.prev t = none) :
    ∃ heap' list', InList.push build heap list t = .ok (heap', list') ∧
      Holds heap' list' (t :: xs) ∧ AgreeOutside (t :: xs) heap heap' := by
  refine ⟨_, _, h.push_eq build hnext hprev, ?_, ?_⟩
  · exact Linked.cons hfresh nodup hprev h
  · intro y hy
    rw [List.mem_cons, not_or] at hy
    have hhead : list.head ≠ some y := by
      rw [h.head_eq]
      exact fun e => hy.2 (List.mem_of_head? e)
    exact ⟨store_of_ne fun e => hy.1 (Option.some.inj e).symm,
      store_of_ne hhead⟩

theorem removed {before after : List T} {t : T}
    (h : Holds heap list (before ++ t :: after))
    (nodup : (before ++ t :: after).Nodup) :
    let heap' := ((heap.setNext (heap.prev t) (heap.next t)).setPrev
      (heap.next t) (heap.prev t)).clear t
    Holds heap'
        ⟨if before = [] then heap.next t else list.head,
          if after = [] then heap.prev t else list.tail⟩ (before ++ after) ∧
      heap'.next t = none ∧ heap'.prev t = none ∧
      AgreeOutside (before ++ t :: after) heap heap' := by
  have hfresh : t ∉ before ++ after :=
    (List.nodup_middle.mp nodup).notMem
  refine ⟨?_, by simp [Heap.clear, Heap.setNext], by
    simp [Heap.clear, Heap.setNext, Heap.setPrev], ?_⟩
  · refine (Linked.remove nodup h).congr (fun x hx => ?_) fun x hx => ?_
    · exact store_of_ne fun e : some t = some x =>
        hfresh (Option.some.inj e ▸ hx)
    · exact store_of_ne fun e : some t = some x =>
        hfresh (Option.some.inj e ▸ hx)
  · intro y hy
    have hy' : y ∉ before ∧ y ≠ t ∧ y ∉ after := by simpa using hy
    have hne : (some t : Option T) ≠ some y := fun e =>
      hy'.2.1 (Option.some.inj e).symm
    have hprev : heap.prev t ≠ some y := by
      rw [Linked.prev_eq before after h]
      exact fun e => hy'.1 (List.mem_of_getLast? e)
    have hnext : heap.next t ≠ some y := by
      rw [Linked.next_eq before after h]
      exact fun e => hy'.2.2 (List.mem_of_head? e)
    constructor
    · exact (store_of_ne hne).trans (store_of_ne hprev)
    · exact (store_of_ne hne).trans (store_of_ne hnext)

theorem unlink {before after : List T} {t : T}
    (h : Holds heap list (before ++ t :: after))
    (nodup : (before ++ t :: after).Nodup) :
    ∃ heap' list', InList.unlink build heap list t = .ok (heap', list') ∧
      Holds heap' list' (before ++ after) ∧
      heap'.next t = none ∧ heap'.prev t = none ∧
      AgreeOutside (before ++ t :: after) heap heap' := by
  refine ⟨_, _, ?_, removed h nodup⟩
  have hfresh : t ∉ before ++ after :=
    (List.nodup_middle.mp nodup).notMem
  rw [List.mem_append, not_or] at hfresh
  have hprev : heap.prev t ≠ some t := by
    rw [Linked.prev_eq before after h]
    exact fun e => hfresh.1 (List.mem_of_getLast? e)
  have hnext : heap.next t ≠ some t := by
    rw [Linked.next_eq before after h]
    exact fun e => hfresh.2 (List.mem_of_head? e)
  have hends : (list.head.isSome && list.tail.isSome) = true := by
    rw [← Option.not_isNone, ← Option.not_isNone, h.head_isNone,
      h.tail_isNone]
    cases before <;> rfl
  have hleft : ((heap.prev t).isSome || decide (list.head = some t)) = true := by
    rw [Linked.prev_eq before after h]
    simp only [head_eq_some_iff h nodup]
    cases before using List.reverseRecOn <;> simp
  have hright : ((heap.next t).isSome || decide (list.tail = some t)) = true := by
    rw [Linked.next_eq before after h]
    simp only [tail_eq_some_iff h nodup]
    cases after <;> simp
  rw [unlink_eq build hprev hnext]
  simp only [hends, hleft, hright, Build.assert_true, Code.ok_bind]
  simp only [tail_eq_some_iff h nodup, head_eq_some_iff h nodup, pure,
    Except.pure]

theorem pop {xs : List T} {t : T} (h : Holds heap list (xs ++ [t]))
    (nodup : (xs ++ [t]).Nodup) :
    ∃ heap' list', InList.pop build heap list = .ok (t, heap', list') ∧
      Holds heap' list' xs ∧ heap'.next t = none ∧ heap'.prev t = none ∧
      AgreeOutside (xs ++ [t]) heap heap' := by
  have hremoved := removed h nodup
  rw [List.append_nil] at hremoved
  refine ⟨_, _, ?_, hremoved⟩
  have htail : list.tail = some t := (tail_eq_some_iff h nodup).mpr rfl
  have hnext : heap.next t = none := Linked.next_eq xs [] h
  have hhead : (some t = list.head) ↔ xs = [] := by
    rw [← head_eq_some_iff h nodup, eq_comm]
  have hends : (list.tail.isSome && list.head.isSome) = true := by
    rw [← Option.not_isNone, ← Option.not_isNone, h.head_isNone,
      h.tail_isNone]
    cases xs <;> rfl
  simp only [InList.pop, hends, h.nullLink_next, h.nullLink_prev,
    Build.assert_true, Code.ok_bind]
  simp only [htail, deref_some, Code.ok_bind, hhead, hnext]
  cases xs with
  | nil =>
      have hprev : heap.prev t = none := Linked.prev_eq [] [] h
      simp only [hprev, if_true, Option.isNone_none, Build.assert_true]
      rfl
  | cons x xs => rfl

end Holds

end Iocore.InList
