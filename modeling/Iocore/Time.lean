import Iocore.Defs
import Iocore.Foundation.Rounding
import Mathlib.Algebra.Order.Floor.Semiring

/-!
# Points in time

`Time::GetTimeSpec` builds the absolute deadline that the timed calls of the
thread library take.  The seconds are added in binary64 and cut off, the
milliseconds that are left over are added to the nanoseconds.  A clock of the
kernel counts nanoseconds in 63 bits; of such a reading neither the rounding
nor the conversion back loses anything.
-/

namespace Iocore.Time

open Foundation

structure Timespec where
  sec : ℕ
  nsec : ℕ
  deriving DecidableEq, Repr

def Timespec.toNs (t : Timespec) : ℕ := t.sec * 1000000000 + t.nsec

structure Reading extends Timespec where
  nsec_lt : nsec < 1000000000
  toNs_lt : toTimespec.toNs < 2 ^ 63

def nsPerMs : ℕ := 1000000

/-- The sums that `GetTimeSpec` forms; the first goes through a double. -/
def add (now : Timespec) (msec : UInt32) : Timespec :=
  let sec := ⌊Rounding.binary64
    (Rounding.binary64 now.sec + Rounding.binary64 (msec.toNat / 1000))⌋₊
  let nsec := now.nsec + (msec % 1000 * 1000 * 1000).toNat
  ⟨sec + nsec / 1000000000, nsec % 1000000000⟩

/-- `now` is the reading of the monotonic clock. -/
def getTimeSpec (build : Build) (now : Reading) (msec : UInt32) :
    Code Timespec := do
  let t := add now.toTimespec msec
  build.assert (t.nsec ≤ 999999999)
  return t

def deadline (now : ℕ) (msec : UInt32) : ℕ := now + msec.toNat * nsPerMs

/-! ## The seconds -/

private theorem floor_eq_of_near {q : ℚ} {n ms : ℕ} (hms : ms % 1000 ≠ 0)
    (hnear : |q - (n + ms / 1000)| < 1 / 1000) : ⌊q⌋₊ = n + ms / 1000 := by
  have hsplit : (ms : ℚ) = 1000 * (ms / 1000 : ℕ) + (ms % 1000 : ℕ) := by
    exact_mod_cast (Nat.div_add_mod ms 1000).symm
  have hlow : (1 : ℚ) ≤ (ms % 1000 : ℕ) := by
    exact_mod_cast Nat.one_le_iff_ne_zero.mpr hms
  have hhigh : ((ms % 1000 : ℕ) : ℚ) ≤ 999 := by
    exact_mod_cast Nat.le_of_lt_succ (Nat.mod_lt ms (by decide))
  obtain ⟨hbelow, habove⟩ := abs_lt.mp hnear
  have hnonneg : (0 : ℚ) ≤ q := by
    have hn : (0 : ℚ) ≤ n := n.cast_nonneg
    have hwhole : (0 : ℚ) ≤ (ms / 1000 : ℕ) := Nat.cast_nonneg _
    linarith
  refine (Nat.floor_eq_iff hnonneg).mpr ⟨?_, ?_⟩
  · push_cast
    linarith
  · push_cast
    linarith

theorem binary64_natCast {n : ℕ} (hn : n < 2 ^ 53) :
    Rounding.binary64 (n : ℚ) = n :=
  Rounding.round_natCast 53 hn

/-- No rounding carries the sum over to another second. -/
theorem floor_binary64_add {sec ms : ℕ} (hsec : sec < 2 ^ 34) (hms : ms < 2 ^ 32) :
    ⌊Rounding.binary64 (Rounding.binary64 sec + Rounding.binary64 (ms / 1000))⌋₊ =
      sec + ms / 1000 := by
  rw [binary64_natCast (by omega)]
  by_cases hwhole : ms % 1000 = 0
  · have hdiv : (ms : ℚ) / 1000 = (ms / 1000 : ℕ) := by
      have hms : (ms : ℚ) = (ms / 1000 : ℕ) * 1000 := by
        exact_mod_cast (Nat.div_mul_cancel (Nat.dvd_of_mod_eq_zero hwhole)).symm
      rw [div_eq_iff (by norm_num), ← hms]
    rw [hdiv, binary64_natCast (by omega), ← Nat.cast_add,
      binary64_natCast (by omega), Nat.floor_natCast]
  have hpos : (1 : ℚ) ≤ ms := by
    exact_mod_cast Nat.pos_of_ne_zero fun h => hwhole (by rw [h])
  have hmsQ : (ms : ℚ) < 2 ^ 32 := by exact_mod_cast hms
  have hsecQ : (sec : ℚ) < 2 ^ 34 := by exact_mod_cast hsec
  have hsec0 : (0 : ℚ) ≤ sec := sec.cast_nonneg
  have hquotient : |Rounding.binary64 (ms / 1000) - (ms : ℚ) / 1000| ≤
      2 ^ ((23 : ℤ) - (53 : ℕ) - 1) :=
    Rounding.abs_round_sub_le 53 (by linarith) (by norm_num; linarith)
  have hclose := abs_le.mp hquotient
  have hsum : |Rounding.binary64 (sec + Rounding.binary64 (ms / 1000)) -
      (sec + Rounding.binary64 (ms / 1000))| ≤ 2 ^ ((35 : ℤ) - (53 : ℕ) - 1) :=
    Rounding.abs_round_sub_le 53 (by norm_num at hclose ⊢; linarith)
      (by norm_num at hclose ⊢; linarith)
  apply floor_eq_of_near hwhole
  norm_num at hclose hsum
  rw [abs_le] at hsum
  rw [abs_lt]
  constructor <;> linarith

/-! ## The deadline -/

theorem Reading.sec_lt (now : Reading) : now.sec < 2 ^ 34 := by
  have h := now.toNs_lt
  unfold Timespec.toNs at h
  omega

theorem msec_toNs (msec : UInt32) : (msec % 1000 * 1000 * 1000).toNat =
    msec.toNat % 1000 * nsPerMs := by
  have hlt := msec.toNat_lt
  simp only [UInt32.toNat_mul, UInt32.toNat_mod, UInt32.toNat_ofNat,
    Nat.reducePow, Nat.reduceMod, nsPerMs]
  omega

theorem add_nsec_lt (now : Timespec) (msec : UInt32) :
    (add now msec).nsec < 1000000000 :=
  Nat.mod_lt _ (by decide)

theorem add_toNs (now : Reading) (msec : UInt32) :
    (add now.toTimespec msec).toNs = deadline now.toNs msec := by
  have hsec := floor_binary64_add now.sec_lt msec.toNat_lt
  simp only [add, Timespec.toNs, hsec, msec_toNs, deadline, nsPerMs]
  omega

theorem getTimeSpec_eq (build : Build) (now : Reading) (msec : UInt32) :
    getTimeSpec build now msec = .ok (add now.toTimespec msec) := by
  have hnsec := Nat.le_of_lt_succ (add_nsec_lt now.toTimespec msec)
  rw [getTimeSpec, decide_eq_true hnsec, Build.assert_true]
  rfl

end Iocore.Time
