import Mathlib.Data.Fintype.Card

/-!
# Locks that are taken in order

Some parties hold locks, and some want one that another party holds.  Where
each of those wants a lock above all that it holds, the chain from a party to
the holder it waits for, and on to the one that this waits for, comes to an
end at a party that waits for nobody.
-/

namespace Iocore.Foundation

universe u v

structure Waiting (ι : Type u) (L : Type v) where
  holds : ι → L → Prop
  wants : ι → Option L

namespace Waiting

variable {ι : Type u} {L : Type v} (w : Waiting ι L)

def On (l : L) (i j : ι) : Prop := w.wants i = some l ∧ i ≠ j ∧ w.holds j l

def For (i j : ι) : Prop := ∃ l, w.On l i j

def Blocked (i : ι) : Prop := ∃ j, w.For i j

def Ordered [Preorder L] : Prop :=
  ∀ {l m i j}, w.On l i j → w.holds i m → m < l

variable {w}

theorem holds_of_chain {i j : ι} (chain : Relation.ReflTransGen w.For i j) :
    j = i ∨ ∃ l, w.holds j l := by
  cases chain with
  | refl => exact .inl rfl
  | tail _ last =>
      obtain ⟨l, hlast⟩ := last
      exact .inr ⟨l, hlast.2.2⟩

variable [Preorder L]

/-- Along a chain the locks that are held do not fall below the first one. -/
theorem Ordered.holds_above (h : w.Ordered) {i j k : ι} {l : L}
    (first : w.On l i j) (chain : Relation.ReflTransGen w.For j k) :
    ∃ m, w.holds k m ∧ l ≤ m := by
  induction chain with
  | refl => exact ⟨l, first.2.2, le_rfl⟩
  | tail _ last ih =>
      obtain ⟨m, hm, hle⟩ := ih
      obtain ⟨l', hlast⟩ := last
      exact ⟨l', hlast.2.2, hle.trans (h hlast hm).le⟩

theorem Ordered.acyclic (h : w.Ordered) (i : ι) :
    ¬ Relation.TransGen w.For i i := by
  intro cycle
  obtain ⟨j, ⟨l, first⟩, rest⟩ := Relation.TransGen.head'_iff.mp cycle
  obtain ⟨m, hm, hle⟩ := h.holds_above first rest
  exact (h first hm).not_ge hle

/-- Nobody waits in vain: the chain of those waited for has an end. -/
theorem Ordered.exists_ready [Finite ι] (h : w.Ordered) (i : ι) :
    ∃ j, Relation.ReflTransGen w.For i j ∧ ¬ w.Blocked j := by
  have wf : WellFounded (flip (Relation.TransGen w.For)) := by
    have : IsTrans ι (flip (Relation.TransGen w.For)) :=
      ⟨fun _ _ _ first second => second.trans first⟩
    have : Std.Irrefl (flip (Relation.TransGen w.For)) := ⟨h.acyclic⟩
    exact Finite.wellFounded_of_trans_of_irrefl _
  induction i using wf.induction with
  | _ i ih =>
      by_cases hblocked : w.Blocked i
      · obtain ⟨j, hj⟩ := hblocked
        obtain ⟨k, chain, hready⟩ := ih j (.single hj)
        exact ⟨k, .head hj chain, hready⟩
      · exact ⟨i, .refl, hblocked⟩

end Waiting

end Iocore.Foundation
