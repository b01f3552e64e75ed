import Mathlib.Algebra.BigOperators.Group.List.Basic
import Mathlib.Data.Nat.ModEq

/-!
# Running checksums of two sums

Each byte is added to a low sum, and the low sum to a high one, both modulo
`m`.  The sums after a string continue over the next one.  Both keep their
start: it stays in the low sum, and the high one has it once more for every
byte.
-/

namespace Iocore.Foundation.Checksum

abbrev Sums := ℕ × ℕ

def add (m : ℕ) (s : Sums) (d : ℕ) : Sums :=
  ((s.1 + d) % m, (s.2 + (s.1 + d) % m) % m)

def run (m : ℕ) (s : Sums) (data : List ℕ) : Sums := data.foldl (add m) s

variable {m : ℕ}

theorem run_append (s : Sums) (data rest : List ℕ) :
    run m s (data ++ rest) = run m (run m s data) rest :=
  List.foldl_append

theorem run_lt {s : Sums} (low : s.1 < m) (high : s.2 < m) (data : List ℕ) :
    (run m s data).1 < m ∧ (run m s data).2 < m := by
  induction data generalizing s with
  | nil => exact ⟨low, high⟩
  | cons d data ih =>
      have hm : 0 < m := by omega
      exact ih (Nat.mod_lt _ hm) (Nat.mod_lt _ hm)

theorem run_low (s : Sums) (data : List ℕ) :
    (run m s data).1 ≡ s.1 + data.sum [MOD m] := by
  induction data generalizing s with
  | nil => rfl
  | cons d data ih =>
      rw [List.sum_cons, ← Nat.add_assoc]
      exact (ih (add m s d)).trans ((Nat.mod_modEq _ _).add_right _)

theorem run_low_ne {s t : Sums} (h : ¬ s.1 ≡ t.1 [MOD m]) (data : List ℕ) :
    (run m s data).1 ≠ (run m t data).1 := by
  intro hsame
  have hs := run_low (m := m) s data
  rw [hsame] at hs
  exact h (Nat.ModEq.add_right_cancel' _ (hs.symm.trans (run_low t data)))

theorem run_high (low high : ℕ) (data : List ℕ) :
    (run m (low, high) data).2 ≡ high + (run m (low, 0) data).2 [MOD m] := by
  induction data generalizing low high with
  | nil => rfl
  | cons d data ih =>
      let next := (low + d) % m
      have hstart := ih next ((high + next) % m)
      have hzero : (run m (low, 0) (d :: data)).2 ≡
          next + (run m (next, 0) data).2 [MOD m] := by
        refine (ih next ((0 + next) % m)).trans ?_
        rw [Nat.zero_add]
        exact (Nat.mod_modEq _ _).add_right _
      calc (run m (low, high) (d :: data)).2
        _ ≡ (high + next) % m + (run m (next, 0) data).2 [MOD m] := hstart
        _ ≡ high + next + (run m (next, 0) data).2 [MOD m] :=
          (Nat.mod_modEq _ _).add_right _
        _ = high + (next + (run m (next, 0) data).2) := Nat.add_assoc ..
        _ ≡ high + (run m (low, 0) (d :: data)).2 [MOD m] :=
          hzero.symm.add_left high

theorem run_zeros {low high : ℕ} (hlow : low < m) (hhigh : high < m) (k : ℕ) :
    run m (low, high) (List.replicate k 0) = (low, (high + k * low) % m) := by
  induction k generalizing high with
  | zero =>
      rw [Nat.zero_mul, Nat.add_zero, Nat.mod_eq_of_lt hhigh]
      rfl
  | succ k ih =>
      have hadd : add m (low, high) 0 = (low, (high + low) % m) := by
        rw [add, Nat.add_zero, Nat.mod_eq_of_lt hlow]
      have hnext := ih (Nat.mod_lt (high + low) (by omega))
      rw [Nat.mod_add_mod, Nat.add_assoc, Nat.add_comm low,
        ← Nat.succ_mul] at hnext
      rw [List.replicate_succ, run, List.foldl_cons, hadd]
      exact hnext

end Iocore.Foundation.Checksum
