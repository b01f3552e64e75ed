import Iocore.PerfCounter.Model
import Mathlib.Algebra.Order.Ring.Nat

/-!
# The ranges of the buckets

`UpdateBucket` finds the bucket of a value by shifting it until nothing is
left, and `operator<<` prints with every bucket a range that it computes from
the index alone.  The printed bounds are doubles, all of them powers of two or
zero, and doubles hold these exactly.
-/

namespace Iocore.PerfCounter

/-- The bounds that are printed for bucket `i` are `lo i` and `hi i`. -/
def lo (i : Fin 32) : ℕ := if i.val = 0 then 0 else 2 ^ i.val

def hi (i : Fin 32) : ℕ := 2 ^ (i.val + 1)

theorem inRange_iff {i : Fin 32} {val : UInt32} :
    lo i ≤ val.toNat ∧ val.toNat < hi i ↔ i = bucketOf val :=
  belongs_iff_eq i val

theorem hi_le_lo {i j : Fin 32} (hij : i < j) : hi i ≤ lo j := by
  have hj : j.val ≠ 0 := Nat.ne_zero_of_lt hij
  rw [hi, lo, if_neg hj]
  exact Nat.pow_le_pow_right two_pos hij

theorem bucketOf_mono {val val' : UInt32} (hle : val ≤ val') :
    bucketOf val ≤ bucketOf val' := by
  by_contra hlater
  have habove : lo (bucketOf val) ≤ val.toNat := (inRange_iff.mpr rfl).1
  have hbelow : val'.toNat < hi (bucketOf val') := (inRange_iff.mpr rfl).2
  have hranges := hi_le_lo (Fin.not_le.mp hlater)
  have hvalues := UInt32.le_iff_toNat_le.mp hle
  omega

theorem updateBucket_inRange (counter : PerfCounter) (val : UInt32) :
    bucketCount val < 32 ∧
    (∃ i : Fin 32, (∀ j, lo j ≤ val.toNat ∧ val.toNat < hi j ↔ j = i) ∧
      counter.updateBucket val = .ok { counter with
        bucket := Function.update counter.bucket i (counter.bucket i + 1) }) ∧
    ∀ val', val ≤ val' → bucketCount val ≤ bucketCount val' :=
  ⟨bucketCount_lt val,
    ⟨bucketOf val, fun _ => inRange_iff, updateBucket_eq_update counter val⟩,
    fun _ hle => bucketOf_mono hle⟩

end Iocore.PerfCounter
