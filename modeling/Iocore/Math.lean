import Iocore.Defs
import Iocore.Foundation.Multiples

/-!
# Rounding up

`Math::Roundup` and the macro `ROUNDUP` form the same product of 64-bit words;
only the function checks what it divides by.  When the multiple that is wanted
has no 64-bit word, the product wraps around and comes out below the number
that was to be rounded.
-/

namespace Iocore

open Foundation

namespace Math

def product (n s : UInt64) : UInt64 :=
  (n / s + if n % s ≠ 0 then 1 else 0) * s

def roundup (n s : UInt64) : Code UInt64 := do
  invariant (s ≠ 0)
  return product n s

end Math

/-- The macro on two variables of 64 bits. -/
def ROUNDUP (x y : UInt64) : Code UInt64 :=
  if y = 0 then .error .undefinedBehaviour else .ok (Math.product x y)

namespace Math

structure RoundsUp (roundup : UInt64 → UInt64 → Code UInt64)
    (n s r : UInt64) : Prop where
  result : roundup n s = .ok r
  least : IsLeast {m : ℕ | s.toNat ∣ m ∧ n.toNat ≤ m} r.toNat
  notBelow : n ≤ r
  idempotent : roundup r s = .ok r
  monotone : ∀ m ≤ n, ∃ r', roundup m s = .ok r' ∧ r' ≤ r

/-- No more than the greatest multiple of `s` that is a 64-bit word. -/
def Fits (n s : UInt64) : Prop :=
  n.toNat ≤ s.toNat * ((2 ^ 64 - 1) / s.toNat)

instance (n s : UInt64) : Decidable (Fits n s) :=
  inferInstanceAs (Decidable (_ ≤ _))

variable {n s : UInt64}

theorem toNat_pos (hs : 0 < s) : 0 < s.toNat := UInt64.lt_iff_toNat_lt.mp hs

theorem product_toNat (hs : 0 < s) (n : UInt64) :
    (product n s).toNat = roundUp (toNat_pos hs) n.toNat % 2 ^ 64 := by
  have hrest : (if n % s ≠ 0 then (1 : UInt64) else 0).toNat =
      if n.toNat % s.toNat ≠ 0 then 1 else 0 := by
    have hzero : n % s = 0 ↔ n.toNat % s.toNat = 0 := UInt64.toNat_inj.symm
    rw [apply_ite UInt64.toNat]
    exact if_congr (not_congr hzero) rfl rfl
  rw [product, UInt64.toNat_mul, UInt64.toNat_add, UInt64.toNat_div, hrest,
    Nat.mod_mul_mod, div_add_eq_ceilDiv (toNat_pos hs), roundUp_apply,
    smul_eq_mul, Nat.mul_comm]

theorem fits_iff (hs : 0 < s) :
    Fits n s ↔ roundUp (toNat_pos hs) n.toNat < 2 ^ 64 := by
  have hbound : (2 : ℕ) ^ 64 = 2 ^ 64 - 1 + 1 := rfl
  rw [hbound, Nat.lt_succ_iff, roundUp_le_iff]
  rfl

theorem Fits.product_toNat (fits : Fits n s) (hs : 0 < s) :
    (product n s).toNat = roundUp (toNat_pos hs) n.toNat := by
  rw [Math.product_toNat hs, Nat.mod_eq_of_lt ((fits_iff hs).mp fits)]

theorem product_lt_iff (hs : 0 < s) : product n s < n ↔ ¬ Fits n s := by
  rw [UInt64.lt_iff_toNat_lt]
  constructor
  · intro hlt fits
    rw [fits.product_toNat hs] at hlt
    exact hlt.not_ge ((roundUp _).le_closure _)
  · intro hwrap
    rw [fits_iff hs, Nat.not_lt] at hwrap
    rw [product_toNat hs]
    exact roundUp_mod_lt _ s.toNat_lt.le n.toNat_lt hwrap

/-! ## When the result is the least multiple -/

variable {f : UInt64 → UInt64 → Code UInt64}

theorem Fits.roundsUp (fits : Fits n s) (hs : 0 < s)
    (hf : ∀ n, f n s = .ok (product n s)) : RoundsUp f n s (product n s) := by
  have hroundUp := fits.product_toNat hs
  have hle : n ≤ product n s := by
    rw [UInt64.le_iff_toNat_le, hroundUp]
    exact (roundUp _).le_closure _
  constructor
  · exact hf n
  · rw [hroundUp]
    exact roundUp_isLeast (toNat_pos hs) n.toNat
  · exact hle
  · have hfits : Fits (product n s) s := by
      rw [fits_iff hs, hroundUp, (roundUp _).idempotent]
      exact (fits_iff hs).mp fits
    rw [hf, Except.ok.injEq, ← UInt64.toNat_inj, hfits.product_toNat hs,
      hroundUp, (roundUp _).idempotent]
  · intro m hmn
    have hmono : roundUp (toNat_pos hs) m.toNat ≤
        roundUp (toNat_pos hs) n.toNat :=
      (roundUp _).monotone (UInt64.le_iff_toNat_le.mp hmn)
    have hfits : Fits m s :=
      (UInt64.le_iff_toNat_le.mp hmn).trans fits
    refine ⟨product m s, hf m, ?_⟩
    rw [UInt64.le_iff_toNat_le, hfits.product_toNat hs, hroundUp]
    exact hmono

theorem roundsUp_iff (hs : 0 < s) (hf : ∀ n, f n s = .ok (product n s)) :
    (∃ r, RoundsUp f n s r) ↔ Fits n s := by
  constructor
  · rintro ⟨r, rounds⟩
    by_contra hwrap
    cases (hf n).symm.trans rounds.result
    exact UInt64.not_le.mpr ((product_lt_iff hs).mpr hwrap) rounds.notBelow
  · exact fun fits => ⟨product n s, fits.roundsUp hs hf⟩

theorem roundup_eq (hs : 0 < s) (n : UInt64) :
    roundup n s = .ok (product n s) := by
  have hne : s ≠ 0 := (UInt64.ne_of_lt hs).symm
  rw [roundup, decide_eq_true hne]
  rfl

theorem ROUNDUP_eq (hs : 0 < s) (n : UInt64) :
    ROUNDUP n s = .ok (product n s) :=
  if_neg (UInt64.ne_of_lt hs).symm

theorem roundup_least_iff (hs : 0 < s) :
    ((∃ r, RoundsUp roundup n s r) ↔ Fits n s) ∧
    ((∃ r, RoundsUp ROUNDUP n s r) ↔ Fits n s) :=
  ⟨roundsUp_iff hs (roundup_eq hs), roundsUp_iff hs (ROUNDUP_eq hs)⟩

theorem roundup_least_page :
    (∃ r, RoundsUp roundup 0xFFFFFFFFFFFFF000 4096 r) ∧
    (∃ r, RoundsUp ROUNDUP 0xFFFFFFFFFFFFF000 4096 r) ∧
    ¬ ∃ r, RoundsUp roundup 0xFFFFFFFFFFFFF001 4096 r :=
  ⟨(roundup_least_iff (by decide)).1.mpr (by decide),
    (roundup_least_iff (by decide)).2.mpr (by decide),
    (roundup_least_iff (by decide)).1.not.mpr (by decide)⟩

theorem roundup_not_least :
    roundup 0xFFFFFFFFFFFFFFFF 2 = .ok 0 ∧ ROUNDUP 0xFFFFFFFFFFFFFFFF 2 = .ok 0 ∧
      ¬ (∃ r, RoundsUp roundup 0xFFFFFFFFFFFFFFFF 2 r) ∧
      ¬ ∃ r, RoundsUp ROUNDUP 0xFFFFFFFFFFFFFFFF 2 r := by
  have hs : (0 : UInt64) < 2 := by decide
  exact ⟨rfl, rfl, (roundsUp_iff hs (roundup_eq hs)).not.mpr (by decide),
    (roundsUp_iff hs (ROUNDUP_eq hs)).not.mpr (by decide)⟩

theorem roundup_least_all_iff (hs : 0 < s) :
    (∀ n, ∃ r, RoundsUp roundup n s r) ↔ s.toNat ∣ 2 ^ 64 - 1 := by
  simp only [roundsUp_iff hs (roundup_eq hs), Fits]
  constructor
  · intro fits
    have hlast : 2 ^ 64 - 1 ≤ s.toNat * ((2 ^ 64 - 1) / s.toNat) :=
      fits 0xFFFFFFFFFFFFFFFF
    exact ⟨_, hlast.antisymm (Nat.mul_div_le _ _)⟩
  · intro hdvd n
    rw [Nat.mul_div_cancel' hdvd]
    exact Nat.le_of_lt_succ n.toNat_lt

end Math

end Iocore
