import Iocore.Time
import Mathlib.Algebra.Order.Floor.Semifield

/-!
# Deadlines in exact arithmetic

The sums of `GetTimeSpec` and `NowInMilliSec` over any way of rounding what a
`double` holds.  Without rounding the deadline lies exactly as many milliseconds
after the reading as asked for, whichever way the parts of `msec` take.
-/

namespace Iocore.Time

open Foundation

section Rounded

variable (round : ℚ → ℚ)

def addWith (now : Timespec) (msec : UInt32) : Timespec :=
  let sec := ⌊round (round now.sec + round (msec.toNat / 1000))⌋₊
  let nsec := now.nsec + (msec % 1000 * 1000 * 1000).toNat
  ⟨sec + nsec / 1000000000, nsec % 1000000000⟩

def getTimeSpecWith (build : Build) (now : Timespec) (msec : UInt32) :
    Code Timespec := do
  let t := addWith round now msec
  build.assert (t.nsec ≤ 999999999)
  return t

def nowInMilliSecWith (t : Timespec) : ℕ :=
  ⌊round (round (t.sec * 1000 : ℕ) + round (t.nsec / 1000000))⌋₊

end Rounded

theorem getTimeSpec_eq_with (build : Build) (now : Reading) (msec : UInt32) :
    getTimeSpec build now msec =
      getTimeSpecWith Rounding.binary64 build now.toTimespec msec := rfl

theorem floor_add_div (n k d : ℕ) : ⌊(n : ℚ) + k / d⌋₊ = n + k / d := by
  rw [add_comm, Nat.floor_add_natCast (by positivity), Nat.floor_div_eq_div,
    Nat.add_comm]

theorem nowInMilliSec_eq (t : Timespec) :
    nowInMilliSecWith id t = t.toNs / nsPerMs := by
  have hfloor := floor_add_div (t.sec * 1000) t.nsec 1000000
  simp only [nowInMilliSecWith, id_eq, Timespec.toNs, nsPerMs]
  push_cast at hfloor ⊢
  rw [hfloor]
  omega

theorem addWith_eq (now : Timespec) (msec : UInt32) : addWith id now msec =
    ⟨now.sec + msec.toNat / 1000 +
        (now.nsec + msec.toNat % 1000 * nsPerMs) / 1000000000,
      (now.nsec + msec.toNat % 1000 * nsPerMs) % 1000000000⟩ := by
  have hfloor := floor_add_div now.sec msec.toNat 1000
  push_cast at hfloor
  simp only [addWith, id_eq, msec_toNs]
  rw [hfloor]

theorem addWith_toNs (now : Timespec) (msec : UInt32) :
    (addWith id now msec).toNs = deadline now.toNs msec := by
  rw [addWith_eq]
  simp only [Timespec.toNs, deadline, nsPerMs]
  omega

/-- After a reading of the kernel's clock, no integer leaves its 64 bits. -/
theorem addWith_lt (now : Reading) (msec : UInt32) :
    now.nsec + (msec % 1000 * 1000 * 1000).toNat < 2 ^ 63 ∧
      (addWith id now.toTimespec msec).sec * 1000 < 2 ^ 63 := by
  have hsec := now.sec_lt
  have hnsec := now.nsec_lt
  have hmsec := msec.toNat_lt
  rw [addWith_eq, msec_toNs]
  simp only [nsPerMs]
  omega

theorem getTimeSpec_exact (build : Build) (now : Timespec) (msec : UInt32) :
    ∃ t, getTimeSpecWith id build now msec = .ok t ∧ t.nsec ≤ 999999999 ∧
      t.toNs = now.toNs + msec.toNat * 10 ^ 6 ∧
      nowInMilliSecWith id t = nowInMilliSecWith id now + msec.toNat := by
  have hnsec : (addWith id now msec).nsec ≤ 999999999 :=
    Nat.le_of_lt_succ (Nat.mod_lt _ (by decide))
  have htoNs := addWith_toNs now msec
  refine ⟨addWith id now msec, ?_, hnsec, htoNs, ?_⟩
  · rw [getTimeSpecWith, decide_eq_true hnsec, Build.assert_true]
    rfl
  · rw [nowInMilliSec_eq, nowInMilliSec_eq, htoNs, deadline, nsPerMs]
    omega

end Iocore.Time
