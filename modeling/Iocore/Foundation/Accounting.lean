import Iocore.Foundation.Threads
import Mathlib.Data.Nat.ModEq

/-!
# Accounts kept by many threads

A thread that brings an amount carries it until it enters it into a shared
cell.  A `Ledger` says that nothing gets lost on the way when the cell wraps
around at a modulus; `Tracks` says the same of a cell that keeps the extreme
of the values it was offered, and that each thread updates by reading it,
comparing, and exchanging it for a better value.
-/

namespace Iocore.Foundation

universe u v w

variable {ι : Type u} {κ : Type v}

section Ledger

variable [Fintype ι]

/-- The cell and what the threads carry add up to `amount`, modulo `m`. -/
def Ledger (m : ℕ) (carried : κ → ℕ) (f : ι → κ) (cell amount : ℕ) : Prop :=
  cell + total carried f ≡ amount [MOD m]

namespace Ledger

variable {m : ℕ} {carried : κ → ℕ} {f : ι → κ} {cell amount : ℕ}

theorem at_rest (done : ∀ i, carried (f i) = 0) :
    Ledger m carried f cell amount ↔ cell ≡ amount [MOD m] := by
  have htotal : total carried f = 0 := Finset.sum_eq_zero fun i _ => done i
  rw [Ledger, htotal, Nat.add_zero]

theorem settled (h : Ledger m carried f cell amount)
    (done : ∀ i, carried (f i) = 0) (fits : cell < m) : cell = amount % m := by
  have htotal : total carried f = 0 := Finset.sum_eq_zero fun i _ => done i
  have hmod : (cell + total carried f) % m = amount % m := h
  rwa [htotal, Nat.add_zero, Nat.mod_eq_of_lt fits] at hmod

variable [DecidableEq ι] {i : ι} {x : κ} {n : ℕ}

theorem issue (h : Ledger m carried f cell amount)
    (hx : carried x = carried (f i) + n) :
    Ledger m carried (Function.update f i x) cell (n + amount) := by
  have htotal := total_update carried f i x
  have heq : cell + total carried (Function.update f i x) =
      n + (cell + total carried f) := by omega
  unfold Ledger
  rw [heq]
  exact h.add_left n

theorem move {cell' : ℕ} (h : Ledger m carried f cell amount)
    (hx : cell' + carried x = cell + carried (f i)) :
    Ledger m carried (Function.update f i x) cell' amount := by
  have htotal := total_update carried f i x
  have heq : cell' + total carried (Function.update f i x) =
      cell + total carried f := by omega
  unfold Ledger
  rw [heq]
  exact h

theorem enter {cell' : ℕ} (h : Ledger m carried f cell amount)
    (hx : carried x + n = carried (f i)) (hcell : cell' ≡ cell + n [MOD m]) :
    Ledger m carried (Function.update f i x) cell' amount := by
  have htotal := total_update carried f i x
  have heq : cell + n + total carried (Function.update f i x) =
      cell + total carried f := by omega
  refine (hcell.add_right _).trans ?_
  rw [heq]
  exact h

theorem keep (h : Ledger m carried f cell amount)
    (hx : carried x = carried (f i)) :
    Ledger m carried (Function.update f i x) cell amount :=
  h.enter (n := 0) hx (Nat.ModEq.refl cell)

end Ledger

end Ledger

section Histogram

theorem sum_mod_eq_iff [Fintype ι] {m : ℕ} (hm : 0 < m) (amount : ι → ℕ) :
    ∑ i, amount i % m = ∑ i, amount i ↔ ∀ i, amount i < m := by
  rw [Finset.sum_eq_sum_iff_of_le fun i _ => Nat.mod_le (amount i) m]
  refine ⟨fun h i => ?_, fun h i _ => Nat.mod_eq_of_lt (h i)⟩
  rw [← h i (Finset.mem_univ i)]
  exact Nat.mod_lt _ hm

theorem sum_countP_eq_length [Fintype ι] [DecidableEq ι] {α : Type w}
    (sort : α → ι) (values : List α) :
    ∑ i, values.countP (fun v => decide (i = sort v)) = values.length := by
  induction values with
  | nil => simp
  | cons v values ih =>
      simp only [List.countP_cons, decide_eq_true_eq, List.length_cons]
      rw [Finset.sum_add_distrib, ih, Finset.sum_ite_eq' Finset.univ (sort v),
        if_pos (Finset.mem_univ _)]

end Histogram

section Tracks

variable {α : Type w}

/--
The cell holds its first value or one it was offered, and is at least as good,
in the sense of `r`, as every value except those that threads still `hold`.
-/
structure Tracks (r : α → α → Prop) (first cell : α) (values : List α)
    (hold : κ → Option α) (f : ι → κ) : Prop where
  offered : cell = first ∨ cell ∈ values
  best : ∀ v ∈ values, r cell v ∨ ∃ i, hold (f i) = some v

namespace Tracks

variable {r : α → α → Prop} {first cell : α} {values : List α}
  {hold : κ → Option α} {f : ι → κ}

theorem start (r : α → α → Prop) (first : α) (hold : κ → Option α)
    (f : ι → κ) : Tracks r first first [] hold f :=
  ⟨.inl rfl, fun _ hv => absurd hv List.not_mem_nil⟩

/-- Once no thread holds a value, the cell is the best of them. -/
theorem settled (h : Tracks r first cell values hold f)
    (done : ∀ i, hold (f i) = none) (nonempty : values ≠ [])
    (worst : ∀ v ∈ values, r v first)
    (antisymm : ∀ {a b}, r a b → r b a → a = b) :
    cell ∈ values ∧ ∀ v ∈ values, r cell v := by
  have hbest : ∀ v ∈ values, r cell v := fun v hv =>
    (h.best v hv).resolve_right fun ⟨i, hi⟩ => by simp [done i] at hi
  refine ⟨?_, hbest⟩
  rcases h.offered with hfirst | hmem
  · obtain ⟨v, hv⟩ := List.exists_mem_of_ne_nil values nonempty
    have heq : cell = v := antisymm (hbest v hv) (hfirst ▸ worst v hv)
    rwa [heq]
  · exact hmem

theorem exchange {v : α} (h : Tracks r first cell values hold f)
    (trans : ∀ {a b c}, r a b → r b c → r a c) (offered : v ∈ values)
    (better : r v cell) : Tracks r first v values hold f where
  offered := .inr offered
  best := fun w hw => (h.best w hw).imp_left (trans better)

theorem compare {cell' v : α} (h : Tracks r first cell values hold f)
    (trans : ∀ {a b c}, r a b → r b c → r a c) (done : ∀ i, hold (f i) = none)
    (chosen : cell' = v ∨ cell' = cell) (value : r cell' v) (old : r cell' cell) :
    Tracks r first cell' (v :: values) hold f where
  offered := by
    rcases chosen with rfl | rfl
    · exact .inr List.mem_cons_self
    · exact h.offered.imp_right (List.mem_cons_of_mem v)
  best := by
    intro w hw
    rcases List.mem_cons.mp hw with rfl | hw
    · exact .inl value
    · refine .inl (trans old ((h.best w hw).resolve_right ?_))
      rintro ⟨i, hi⟩
      simp [done i] at hi

theorem unique {ι' : Type u} {cell' : α} {f' : ι' → κ}
    (h : Tracks r first cell values hold f)
    (h' : Tracks r first cell' values hold f') (done : ∀ i, hold (f i) = none)
    (done' : ∀ i, hold (f' i) = none) (worst : ∀ v ∈ values, r v first)
    (antisymm : ∀ {a b}, r a b → r b a → a = b) : cell = cell' := by
  by_cases hempty : values = []
  · subst hempty
    rw [h.offered.resolve_right List.not_mem_nil,
      h'.offered.resolve_right List.not_mem_nil]
  · obtain ⟨hmem, hbest⟩ := h.settled done hempty worst antisymm
    obtain ⟨hmem', hbest'⟩ := h'.settled done' hempty worst antisymm
    exact antisymm (hbest _ hmem') (hbest' _ hmem)

variable [DecidableEq ι] {i : ι} {x : κ} {v : α}

theorem offer (h : Tracks r first cell values hold f)
    (before : hold (f i) = none) (after : hold x = some v) :
    Tracks r first cell (v :: values) hold (Function.update f i x) where
  offered := h.offered.imp_right (List.mem_cons_of_mem v)
  best := by
    intro w hw
    rcases List.mem_cons.mp hw with rfl | hw
    · exact .inr ⟨i, by rwa [Function.update_self]⟩
    · refine (h.best w hw).imp_right fun ⟨j, hj⟩ => ⟨j, ?_⟩
      have hne : j ≠ i := by
        rintro rfl
        simp [before] at hj
      rwa [Function.update_of_ne hne]

theorem keep (h : Tracks r first cell values hold f)
    (same : hold x = hold (f i)) :
    Tracks r first cell values hold (Function.update f i x) where
  offered := h.offered
  best := by
    intro w hw
    refine (h.best w hw).imp_right fun ⟨j, hj⟩ => ⟨j, ?_⟩
    by_cases hji : j = i
    · subst hji
      rwa [Function.update_self, same]
    · rwa [Function.update_of_ne hji]

theorem settle (h : Tracks r first cell values hold f)
    (before : hold (f i) = some v) (good : r cell v) :
    Tracks r first cell values hold (Function.update f i x) where
  offered := h.offered
  best := by
    intro w hw
    rcases h.best w hw with hbest | ⟨j, hj⟩
    · exact .inl hbest
    · by_cases hji : j = i
      · subst hji
        obtain rfl := Option.some.inj (before.symm.trans hj)
        exact .inl good
      · exact .inr ⟨j, by rwa [Function.update_of_ne hji]⟩

end Tracks

end Tracks

end Iocore.Foundation
