import Iocore.InList.Refinement

/-!
# The containers inside the queues

`Queue` keeps its elements in a `std::queue`, `InQueue` in an `InList` of
which only `Push` and `Pop` are used.  Both serve as a sequence that grows at
one end and shrinks at the other.
-/

namespace Iocore.Queue

open Foundation

structure SeqQueue (S T : Type) where
  initial : S
  isEmpty : S → Bool
  push : S → T → Code S
  pop : S → Code (T × S)

/--
The container behaves as a sequence, oldest element first, as long as only
elements that fit are pushed.
-/
structure SeqQueue.Lawful {S T : Type} (q : SeqQueue S T)
    (Fits : S → T → Prop) (Content : S → List T → Prop) : Prop where
  initial : Content q.initial []
  isEmpty : ∀ {s xs}, Content s xs → q.isEmpty s = xs.isEmpty
  push : ∀ {s xs t}, Content s xs → Fits s t →
    ∃ s', q.push s t = .ok s' ∧ Content s' (xs ++ [t])
  pop : ∀ {s xs t}, Content s (t :: xs) →
    ∃ s', q.pop s = .ok (t, s') ∧ Content s' xs

variable {T : Type}

/-- `std::queue`; taking from an empty one is undefined. -/
def stdQueue (T : Type) : SeqQueue (List T) T where
  initial := []
  isEmpty xs := xs.isEmpty
  push xs t := .ok (xs ++ [t])
  pop
    | [] => .error .undefinedBehaviour
    | t :: xs => .ok (t, xs)

theorem stdQueue_lawful :
    (stdQueue T).Lawful (fun _ _ => True) fun xs ys => xs = ys where
  initial := rfl
  isEmpty := by
    rintro xs _ rfl
    rfl
  push := by
    rintro xs _ t rfl -
    exact ⟨xs ++ [t], rfl, rfl⟩
  pop := by
    rintro _ xs t rfl
    exact ⟨xs, rfl, rfl⟩

variable [DecidableEq T] (build : Build)

def inList : SeqQueue (Heap T × InList T) T where
  initial := (Heap.initial T, InList.initial T)
  isEmpty s := s.2.isEmpty
  push s t := InList.push build s.1 s.2 t
  pop s := InList.pop build s.1 s.2

def Unlinked (s : Heap T × InList T) (t : T) : Prop :=
  ∀ ys, ¬ Path s.1.next s.2.head ys (some t)

structure Chain (s : Heap T × InList T) (xs : List T) : Prop where
  holds : InList.Holds s.1 s.2 xs.reverse
  nodup : xs.Nodup
  unlinked : ∀ t, t ∉ xs → s.1.next t = none ∧ s.1.prev t = none

omit [DecidableEq T] in
theorem Chain.notMem {s : Heap T × InList T} {xs : List T} {t : T}
    (h : Chain s xs) (hfits : Unlinked s t) : t ∉ xs := by
  intro hmem
  obtain ⟨ys, hys⟩ := h.holds.forward.mem_iff.mp (List.mem_reverse.mpr hmem)
  exact hfits ys hys

theorem inList_lawful : (inList build).Lawful (T := T) Unlinked Chain where
  initial :=
    { holds := Linked.empty _ _
      nodup := List.nodup_nil
      unlinked := fun _ _ => ⟨rfl, rfl⟩ }
  isEmpty := by
    intro s xs h
    have hempty := h.holds.isEmpty_eq
    rw [List.isEmpty_reverse] at hempty
    exact hempty
  push := by
    intro s xs t h hfits
    have hfresh : t ∉ xs := h.notMem hfits
    obtain ⟨hnext, hprev⟩ := h.unlinked t hfresh
    obtain ⟨heap, list, hpush, hholds, hagree⟩ :=
      h.holds.push build (List.nodup_reverse.mpr h.nodup)
        (fun hmem => hfresh (List.mem_reverse.mp hmem)) hnext hprev
    refine ⟨(heap, list), hpush, ?_, ?_, ?_⟩
    · simpa using hholds
    · rw [List.nodup_append]
      refine ⟨h.nodup, List.nodup_singleton t, fun x hx y hy => ?_⟩
      rw [List.mem_singleton.mp hy]
      exact fun e => hfresh (e ▸ hx)
    · intro y hy
      have hy' : y ∉ xs ∧ y ≠ t := by simpa using hy
      have hsame := hagree y (by simp [hy'.1, hy'.2])
      rw [hsame.1, hsame.2]
      exact h.unlinked y hy'.1
  pop := by
    intro s xs t h
    have hnodup : (xs.reverse ++ [t]).Nodup := by
      simpa using List.nodup_reverse.mpr h.nodup
    have hholds := h.holds
    rw [List.reverse_cons] at hholds
    obtain ⟨heap, list, hpop, hrest, hnext, hprev, hagree⟩ :=
      hholds.pop build hnodup
    refine ⟨(heap, list), hpop, hrest, (List.nodup_cons.mp h.nodup).2, ?_⟩
    intro y hy
    by_cases hyt : y = t
    · subst hyt
      exact ⟨hnext, hprev⟩
    · have hsame := hagree y (by simp [hy, hyt])
      rw [hsame.1, hsame.2]
      exact h.unlinked y (by simp [hy, hyt])

end Iocore.Queue
