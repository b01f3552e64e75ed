import Mathlib.Algebra.Order.Floor.Div
import Mathlib.GroupTheory.GroupAction.Ring
import Mathlib.Order.Bounds.Basic
import Mathlib.Order.Closure

/-!
# Rounding up to a multiple

Division rounded up and multiplication are adjoint, and what the two make of a
number is the least multiple from that number on.  It stays below a bound
precisely when the number stays below the greatest multiple that does.
-/

namespace Iocore.Foundation

universe u v

section Adjoint

variable {α : Type u} {β : Type v} [AddCommMonoid α] [PartialOrder α]
  [AddCommMonoid β] [PartialOrder β] [SMulZeroClass α β] [CeilDiv α β]
  {a : α}

def roundUp (ha : 0 < a) : ClosureOperator β :=
  (gc_smul_ceilDiv ha).closureOperator

theorem roundUp_apply (ha : 0 < a) (b : β) :
    roundUp ha b = a • (b ⌈/⌉ a) := rfl

theorem roundUp_isLeast (ha : 0 < a) (b : β) :
    IsLeast {m | (∃ c, m = a • c) ∧ b ≤ m} (roundUp ha b) := by
  constructor
  · exact ⟨⟨b ⌈/⌉ a, rfl⟩, (roundUp ha).le_closure b⟩
  · rintro m ⟨⟨c, rfl⟩, hbm⟩
    exact (gc_smul_ceilDiv ha).monotone_u
      ((ceilDiv_le_iff_le_smul ha).mpr hbm)

/-- Rounded up it stays below a bound iff it is below the bound rounded down. -/
theorem roundUp_le_iff [FloorDiv α β] (ha : 0 < a) {b bound : β} :
    roundUp ha b ≤ bound ↔ b ≤ a • (bound ⌊/⌋ a) := by
  rw [roundUp_apply, ← le_floorDiv_iff_smul_le ha, ceilDiv_le_iff_le_smul ha]

end Adjoint

section Words

variable {s n w : ℕ}

theorem div_add_eq_ceilDiv (hs : 0 < s) :
    (n / s + if n % s ≠ 0 then 1 else 0) = n ⌈/⌉ s := by
  refine eq_of_forall_ge_iff fun c => ?_
  rw [ceilDiv_le_iff_le_mul hs]
  split_ifs with hrest
  · rw [Nat.succ_le_iff, Nat.div_lt_iff_lt_mul hs, Nat.mul_comm c]
    refine ⟨Nat.le_of_lt, fun hle => Nat.lt_of_le_of_ne hle fun heq => hrest ?_⟩
    rw [heq, Nat.mul_mod_right]
  · have hdvd : s ∣ n := Nat.dvd_of_mod_eq_zero (not_not.mp hrest)
    rw [Nat.add_zero, Nat.div_le_iff_le_mul_of_dvd hs.ne' hdvd, Nat.mul_comm]

theorem roundUp_lt (hs : 0 < s) : roundUp hs n < n + s := by
  have hle : s * ((n + s - 1) / s) ≤ n + s - 1 := Nat.mul_div_le _ _
  rw [roundUp_apply, smul_eq_mul, Nat.ceilDiv_eq_add_pred_div]
  omega

theorem roundUp_mod_lt (hs : 0 < s) (hsw : s ≤ w) (hn : n < w)
    (hwrap : w ≤ roundUp hs n) : roundUp hs n % w < n := by
  have hlt := roundUp_lt (n := n) hs
  have hmod : roundUp hs n % w = roundUp hs n - w := by
    rw [Nat.mod_eq_sub_mod hwrap, Nat.mod_eq_of_lt (by omega)]
  omega

end Words

end Iocore.Foundation
