import Mathlib.Algebra.BigOperators.Group.Finset.Basic
import Mathlib.Algebra.BigOperators.Group.Finset.Piecewise
import Mathlib.Algebra.Order.BigOperators.Group.Finset
import Mathlib.Data.Fintype.BigOperators
import Mathlib.Logic.Function.Basic

/-!
# Thread-indexed state

The local states of the threads of a program form a function from thread names
to control points, and one step changes it at one name.  `Token` says that at
most one thread satisfies a predicate and which one it is; `total` and `count`
add up a measure over all threads.  Each notion comes with its behaviour under
`Function.update`.
-/

namespace Iocore.Foundation

universe u v w

variable {ι : Type u} {κ : Type v}

/-! ## At most one thread -/

def Token (p : κ → Prop) (f : ι → κ) (owner : Option ι) : Prop :=
  ∀ i, p (f i) ↔ owner = some i

def AtMostOne (p : κ → Prop) (f : ι → κ) : Prop :=
  ∀ i j, p (f i) → p (f j) → i = j

namespace Token

variable {p : κ → Prop} {f : ι → κ} {owner : Option ι} {i : ι} {x : κ}

theorem atMostOne (h : Token p f owner) : AtMostOne p f := by
  intro i j hi hj
  have hi' := (h i).mp hi
  have hj' := (h j).mp hj
  rw [hi'] at hj'
  exact Option.some.inj hj'

theorem owner_eq (h : Token p f owner) (hp : p (f i)) : owner = some i :=
  (h i).mp hp

theorem none_of (h : ∀ i, ¬ p (f i)) : Token p f none := by
  intro i
  simp [h i]

theorem not_of_none (h : Token p f none) (i : ι) : ¬ p (f i) := by
  simp [h i]

theorem congr {f' : ι → κ} (h : Token p f owner)
    (hsame : ∀ j, p (f' j) ↔ p (f j)) : Token p f' owner :=
  fun j => (hsame j).trans (h j)

variable [DecidableEq ι]

theorem keep (h : Token p f owner) (hx : p x ↔ p (f i)) :
    Token p (Function.update f i x) owner := by
  intro j
  by_cases hj : j = i
  · subst hj
    simpa [hx] using h j
  · simpa [Function.update_of_ne hj] using h j

theorem acquire (h : Token p f none) (hx : p x) :
    Token p (Function.update f i x) (some i) := by
  intro j
  by_cases hj : j = i
  · subst hj
    simpa using hx
  · have hne : i ≠ j := fun e => hj e.symm
    simpa [Function.update_of_ne hj, hne] using h.not_of_none j

theorem release (h : Token p f (some i)) (hx : ¬ p x) :
    Token p (Function.update f i x) none := by
  apply none_of
  intro j
  by_cases hj : j = i
  · subst hj
    simpa using hx
  · have hne : i ≠ j := fun e => hj e.symm
    simpa [Function.update_of_ne hj, h j] using hne

end Token

/-! ## Facts about every thread -/

theorem forall_update [DecidableEq ι] (P : ι → κ → Prop) {f : ι → κ} {i : ι}
    {x : κ} (here : P i x) (others : ∀ j, j ≠ i → P j (f j)) :
    ∀ j, P j (Function.update f i x j) :=
  (Function.forall_update_iff f P).mpr ⟨here, others⟩

theorem forall_update₂ [DecidableEq ι] {κ' : Type w} (P : ι → κ → κ' → Prop)
    {f : ι → κ} {g : ι → κ'} {i : ι} {x : κ} {y : κ'} (here : P i x y)
    (others : ∀ j, j ≠ i → P j (f j) (g j)) :
    ∀ j, P j (Function.update f i x j) (Function.update g i y j) := by
  intro j
  by_cases hj : j = i
  · subst hj
    simpa using here
  · simpa [Function.update_of_ne hj] using others j hj

/-! ## Sums over all threads -/

section Sums

variable [Fintype ι] {M : Type w} [AddCommMonoid M]

def total (g : κ → M) (f : ι → κ) : M := ∑ i, g (f i)

theorem total_update [DecidableEq ι] (g : κ → M) (f : ι → κ) (i : ι) (x : κ) :
    total g (Function.update f i x) + g (f i) = total g f + g x := by
  have hrest : ∑ j ∈ Finset.univ.erase i, g (Function.update f i x j) =
      ∑ j ∈ Finset.univ.erase i, g (f j) :=
    Finset.sum_congr rfl fun j hj => by
      rw [Function.update_of_ne (Finset.ne_of_mem_erase hj)]
  unfold total
  rw [← Finset.add_sum_erase _ _ (Finset.mem_univ i), hrest,
    Function.update_self, ← Finset.add_sum_erase _ (fun j => g (f j))
      (Finset.mem_univ i)]
  rw [add_comm (g (f i)), add_assoc, add_comm, add_assoc]

theorem total_add (g h : κ → M) (f : ι → κ) :
    total (fun k => g k + h k) f = total g f + total h f :=
  Finset.sum_add_distrib

theorem le_total (g : κ → ℕ) (f : ι → κ) (i : ι) : g (f i) ≤ total g f :=
  Finset.single_le_sum (f := fun i => g (f i)) (fun _ _ => Nat.zero_le _)
    (Finset.mem_univ i)

theorem total_lt {g : κ → ℕ} {f f' : ι → κ} (h : ∀ i, g (f i) ≤ g (f' i))
    (i : ι) (hi : g (f i) < g (f' i)) : total g f < total g f' :=
  Finset.sum_lt_sum (fun j _ => h j) ⟨i, Finset.mem_univ i, hi⟩

def count (p : κ → Bool) (f : ι → κ) : Nat := total (fun k => (p k).toNat) f

theorem exists_of_count_pos {p : κ → Bool} {f : ι → κ} (h : 0 < count p f) :
    ∃ i, p (f i) = true := by
  by_contra hnone
  have hzero : count p f = 0 := Finset.sum_eq_zero fun i _ => by
    simp only [not_exists, Bool.not_eq_true] at hnone
    simp [hnone i]
  omega

end Sums

end Iocore.Foundation
