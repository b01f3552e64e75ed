import Mathlib.Data.Finset.Fold
import Mathlib.Data.Nat.Bitwise

/-!
# Sets as masks

Where every name has a bit of its own, the bitwise or of some of them stands
for the set of these, and the bitwise and with a name tells whether the name is
in the set.
-/

namespace Iocore.Foundation.Masks

universe u

variable {α : Type u} [DecidableEq α]

def SingleBits (code : α → ℕ) : Prop := ∀ a, ∃ i, code a = 2 ^ i

def mask (code : α → ℕ) (S : Finset α) : ℕ := S.fold (· ||| ·) 0 code

variable {code : α → ℕ}

theorem testBit_mask (S : Finset α) (i : ℕ) :
    (mask code S).testBit i = true ↔ ∃ a ∈ S, (code a).testBit i = true := by
  induction S using Finset.induction_on with
  | empty => simp [mask]
  | insert b S hb ih =>
      have hinsert : mask code (insert b S) = code b ||| mask code S :=
        Finset.fold_insert hb
      rw [hinsert, Nat.testBit_or, Bool.or_eq_true, ih]
      simp

theorem two_pow_and_ne_zero (i n : ℕ) :
    2 ^ i &&& n ≠ 0 ↔ n.testBit i = true := by
  constructor
  · intro h
    obtain ⟨j, hj⟩ := Nat.exists_testBit_of_ne_zero h
    rw [Nat.testBit_and, Nat.testBit_two_pow, Bool.and_eq_true,
      decide_eq_true_eq] at hj
    exact hj.1 ▸ hj.2
  · intro h hzero
    have hbit := congrArg (Nat.testBit · i) hzero
    simp [Nat.testBit_and, h] at hbit

theorem and_mask_ne_zero (single : SingleBits code)
    (injective : Function.Injective code) (a : α) (S : Finset α) :
    code a &&& mask code S ≠ 0 ↔ a ∈ S := by
  obtain ⟨i, hi⟩ := single a
  rw [hi, two_pow_and_ne_zero, testBit_mask]
  constructor
  · rintro ⟨b, hb, hbit⟩
    obtain ⟨j, hj⟩ := single b
    rw [hj, Nat.testBit_two_pow, decide_eq_true_eq] at hbit
    have hsame : b = a := injective (by rw [hj, hi, hbit])
    exact hsame ▸ hb
  · intro ha
    exact ⟨a, ha, by rw [hi, Nat.testBit_two_pow_self]⟩

theorem mask_ne_zero (single : SingleBits code)
    (injective : Function.Injective code) {S : Finset α} (h : S.Nonempty) :
    mask code S ≠ 0 := by
  obtain ⟨a, ha⟩ := h
  intro hzero
  have hin := (and_mask_ne_zero single injective a S).mpr ha
  rw [hzero, Nat.and_zero] at hin
  exact hin rfl

end Iocore.Foundation.Masks
