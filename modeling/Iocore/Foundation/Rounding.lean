import Mathlib.Data.Int.Log
import Mathlib.Data.Rat.Floor
import Mathlib.Tactic.Linarith
import Mathlib.Tactic.NormNum

/-!
# Rounding to a fixed precision

A binary floating-point number of a given precision is an integer times a
power of two, the unit in the last place.  Rounding goes to the nearest such
number, and to the one with the even integer when two are equally near.  Only
non-negative numbers within the range of the format are rounded here, so
neither the sign nor the bounds of the exponent play a part.
-/

namespace Iocore.Foundation.Rounding

def nearest (q : ℚ) : ℤ :=
  let below := ⌊q⌋
  if q - below < 1 / 2 then below
  else if 1 / 2 < q - below then below + 1
  else if below % 2 = 0 then below
  else below + 1

/-- The exponent of the unit in the last place of numbers as large as `q`. -/
def unitExponent (precision : ℕ) (q : ℚ) : ℤ := Int.log 2 q + 1 - precision

def round (precision : ℕ) (q : ℚ) : ℚ :=
  nearest (q / 2 ^ unitExponent precision q) * 2 ^ unitExponent precision q

def binary64 : ℚ → ℚ := round 53

theorem abs_nearest_sub_le (q : ℚ) : |(nearest q : ℚ) - q| ≤ 1 / 2 := by
  have hle : (⌊q⌋ : ℚ) ≤ q := Int.floor_le q
  have hlt : q < ⌊q⌋ + 1 := Int.lt_floor_add_one q
  unfold nearest
  simp only
  rw [abs_le]
  split_ifs with hlow hhigh heven
  · constructor <;> linarith
  · push_cast
    constructor <;> linarith
  · constructor <;> linarith
  · push_cast
    constructor <;> linarith

@[simp] theorem nearest_intCast (n : ℤ) : nearest (n : ℚ) = n := by
  simp [nearest]

variable (precision : ℕ) {q : ℚ}

theorem abs_round_sub_le_half_unit (q : ℚ) :
    |round precision q - q| ≤ 1 / 2 * 2 ^ unitExponent precision q := by
  have hunit : (0 : ℚ) < 2 ^ unitExponent precision q := zpow_pos two_pos _
  generalize hu : (2 : ℚ) ^ unitExponent precision q = unit at hunit
  have hscaled : round precision q - q = (nearest (q / unit) - q / unit) * unit := by
    rw [round, hu, sub_mul, div_mul_cancel₀ q hunit.ne']
  rw [hscaled, abs_mul, abs_of_pos hunit]
  exact mul_le_mul_of_nonneg_right (abs_nearest_sub_le _) hunit.le

theorem abs_round_sub_le {k : ℤ} (hq : 0 < q) (hk : q < 2 ^ k) :
    |round precision q - q| ≤ 2 ^ (k - precision - 1) := by
  have hlog : Int.log 2 q < k :=
    (Int.lt_zpow_iff_log_lt one_lt_two hq).mp (by exact_mod_cast hk)
  have hexponent : unitExponent precision q ≤ k - precision := by
    unfold unitExponent
    omega
  calc |round precision q - q|
      ≤ 1 / 2 * 2 ^ unitExponent precision q :=
        abs_round_sub_le_half_unit precision q
    _ ≤ 1 / 2 * 2 ^ (k - precision) :=
        mul_le_mul_of_nonneg_left
          (zpow_le_zpow_right₀ one_le_two hexponent) (by norm_num)
    _ = 2 ^ (k - precision - 1) := by
        rw [zpow_sub_one₀ two_ne_zero]
        ring

theorem round_natCast {n : ℕ} (hn : n < 2 ^ precision) :
    round precision (n : ℚ) = n := by
  rcases Nat.eq_zero_or_pos n with rfl | hpos
  · simp [round, nearest]
  have hlog : Int.log 2 (n : ℚ) < precision :=
    (Int.lt_zpow_iff_log_lt one_lt_two (by exact_mod_cast hpos)).mp
      (by exact_mod_cast hn)
  obtain ⟨places, hplaces⟩ : ∃ places : ℕ,
      unitExponent precision (n : ℚ) = -places := by
    refine ⟨(-unitExponent precision (n : ℚ)).toNat, ?_⟩
    unfold unitExponent
    omega
  have hinteger : (n : ℚ) / 2 ^ (-places : ℤ) = ((n * 2 ^ places : ℤ) : ℚ) := by
    rw [zpow_neg, div_inv_eq_mul, zpow_natCast]
    push_cast
    ring
  rw [round, hplaces, hinteger, nearest_intCast, ← hinteger,
    div_mul_cancel₀ _ (zpow_ne_zero _ two_ne_zero)]

end Iocore.Foundation.Rounding
