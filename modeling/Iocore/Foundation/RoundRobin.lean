import Mathlib.Data.Int.CardIntervalMod
import Mathlib.Data.List.Count
import Mathlib.Data.List.Nodup

/-!
# Taking turns by a counter

A counter of limited range hands out its value modulo the number of takers.  As
long as it does not start over, any round of that many turns serves every taker
once.  A round in which it starts over does so precisely when the range is a
multiple of the number of takers.
-/

namespace Iocore.Foundation.RoundRobin

/-- The turns of a round that begins after `k` turns; the range is `m`. -/
def turns (m n k : ℕ) : List ℕ := (List.range n).map fun i => (k + i) % m % n

variable {m n k : ℕ}

theorem perm_of_unbroken (h : ∀ i < n, (k + i) % m % n = (k % m + i) % n) :
    (turns m n k).Perm (List.range n) := by
  have hshift : turns m n k = (List.range' (k % m) n).map (· % n) := by
    rw [turns, List.range'_eq_map_range, List.map_map]
    exact List.map_congr_left fun i hi => h i (List.mem_range.mp hi)
  rw [hshift, ← Multiset.coe_eq_coe]
  have hround := Nat.multiset_Ico_map_mod (k % m) n
  have hinterval : Multiset.Ico (k % m) (k % m + n) =
      (List.range' (k % m) n : Multiset ℕ) := by
    change ((List.range' (k % m) (k % m + n - k % m) : List ℕ) : Multiset ℕ) = _
    rw [Nat.add_sub_cancel_left]
  rw [hinterval] at hround
  exact hround

theorem turns_get (hround : (turns m n k).Perm (List.range n)) {i j : ℕ}
    (hi : i < n) (hj : j < n) (h : (k + i) % m % n = (k + j) % m % n) : i = j := by
  have hnodup : (turns m n k).Nodup := hround.nodup_iff.mpr List.nodup_range
  exact List.inj_on_of_nodup_map hnodup (List.mem_range.mpr hi)
    (List.mem_range.mpr hj) h

theorem add_mod_eq {i : ℕ} (hi : i < m) :
    (k + i) % m = if k % m + i < m then k % m + i else k % m + i - m := by
  have hk : k % m < m := Nat.mod_lt _ (by omega)
  rw [Nat.add_mod, Nat.mod_eq_of_lt hi]
  split
  case isTrue h => exact Nat.mod_eq_of_lt h
  case isFalse h =>
    rw [Nat.mod_eq_sub_mod (by omega), Nat.mod_eq_of_lt (by omega)]

theorem dvd_of_perm (hn : 0 < n) (hnm : n ≤ m) (hbroken : m < k % m + n)
    (hround : (turns m n k).Perm (List.range n)) : n ∣ m := by
  have hk : k % m < m := Nat.mod_lt _ (by omega)
  obtain ⟨i, hi, hlast⟩ : ∃ i ∈ List.range n, (k + i) % m % n = n - 1 :=
    List.mem_map.mp (hround.mem_iff.mpr (List.mem_range.mpr (by omega)))
  have hi := List.mem_range.mp hi
  rw [add_mod_eq (by omega)] at hlast
  by_cases hbefore : k % m + i < m
  · rw [if_pos hbefore] at hlast
    have hnext : n ∣ k % m + i + 1 := by
      refine ⟨(k % m + i) / n + 1, ?_⟩
      have hdiv := Nat.div_add_mod (k % m + i) n
      rw [Nat.mul_succ]
      omega
    by_cases hend : k % m + i + 1 = m
    · rwa [hend] at hnext
    · have hsame : i + 1 = m - k % m := by
        apply turns_get hround (by omega) (by omega)
        rw [add_mod_eq (by omega), add_mod_eq (by omega), if_pos (by omega),
          if_neg (by omega), ← Nat.add_assoc, Nat.mod_eq_zero_of_dvd hnext]
        have hzero : k % m + (m - k % m) - m = 0 := by omega
        rw [hzero, Nat.zero_mod]
      omega
  · rw [if_neg hbefore, Nat.mod_eq_of_lt (by omega)] at hlast
    omega

theorem perm_iff (hn : 0 < n) (hnm : n ≤ m) :
    (turns m n k).Perm (List.range n) ↔ n ∣ m ∨ k % m + n ≤ m := by
  constructor
  · intro hround
    by_cases hroom : k % m + n ≤ m
    · exact .inr hroom
    · exact .inl (dvd_of_perm hn hnm (by omega) hround)
  · rintro (hdvd | hroom)
    · apply perm_of_unbroken
      intro i _
      rw [Nat.mod_mod_of_dvd _ hdvd, Nat.add_mod, ← Nat.mod_mod_of_dvd k hdvd,
        ← Nat.add_mod]
    · apply perm_of_unbroken
      intro i hi
      rw [add_mod_eq (by omega), if_pos (by omega)]

/-! ## Loads -/

def load (m n k x : ℕ) : ℕ := (List.range k).countP fun j => j % m % n = x

theorem load_eq (hk : k ≤ m) {x : ℕ} (hx : x < n) :
    load m n k x = k / n + if x < k % n then 1 else 0 := by
  have hcount := Nat.count_modEq_card k (by omega : 0 < n) x
  rw [Nat.mod_eq_of_lt hx] at hcount
  rw [← hcount, load, Nat.count]
  refine List.countP_congr fun j hj => ?_
  have hj := List.mem_range.mp hj
  simp only [decide_eq_true_eq]
  rw [Nat.ModEq, Nat.mod_eq_of_lt hx, Nat.mod_eq_of_lt (by omega : j < m)]

theorem load_mul_add (cycles rest x : ℕ) :
    load m n (cycles * m + rest) x =
      cycles * load m n m x + load m n rest x := by
  induction cycles with
  | zero => simp
  | succ cycles ih =>
      have hsplit : (cycles + 1) * m + rest = m + (cycles * m + rest) := by
        rw [Nat.succ_mul]
        omega
      have hcycle := Nat.count_add (fun j => j % m % n = x) m
        (cycles * m + rest)
      simp only [Nat.add_mod_left] at hcycle
      change load m n _ x = load m n m x + load m n _ x at hcycle
      rw [hsplit, hcycle, ih, Nat.succ_mul]
      omega

theorem load_cycles (hm : 0 < m) {x : ℕ} (hx : x < n) :
    load m n k x = (k / m) * (m / n + if x < m % n then 1 else 0) +
      (k % m / n + if x < k % m % n then 1 else 0) := by
  rw [← load_eq (Nat.mod_lt k hm).le hx, ← load_eq le_rfl hx, ← load_mul_add,
    Nat.mul_comm, Nat.div_add_mod]

/-- Taker `x` comes before `y`, and is at most one turn ahead for each cycle. -/
theorem load_between (hm : 0 < m) {x y : ℕ} (hxy : x ≤ y) (hy : y < n) :
    load m n k y ≤ load m n k x ∧
      load m n k x ≤ load m n k y + k / m + 1 := by
  have hturn : ∀ rest, (if y < rest then 1 else 0) ≤ (if x < rest then 1 else 0) ∧
      (if x < rest then 1 else 0) ≤ (if y < rest then 1 else 0) + 1 := by
    intro rest
    split <;> split <;> omega
  obtain ⟨hcycle, hcycle'⟩ := hturn (m % n)
  obtain ⟨hrest, hrest'⟩ := hturn (k % m % n)
  rw [load_cycles hm hy, load_cycles hm (hxy.trans_lt hy)]
  constructor
  · gcongr
  · have hcycles := Nat.mul_le_mul_left (k / m) (Nat.add_le_add_left hcycle' (m / n))
    rw [← Nat.add_assoc, Nat.mul_add_one] at hcycles
    omega

theorem even_iff (hn : 0 < n) (hm : 0 < m) :
    (∀ x < n, ∀ y < n, load m n k x ≤ load m n k y + 1) ↔
      n ∣ m ∨ k / m = 0 ∨ k / m = 1 ∧ k % m % n = 0 := by
  have hcycle := Nat.mod_lt m hn
  have hrest := Nat.mod_lt (k % m) hn
  constructor
  · intro heven
    have hends := heven 0 hn (n - 1) (by omega)
    rw [load_cycles hm hn, load_cycles hm (by omega : n - 1 < n),
      if_neg (by omega : ¬ n - 1 < m % n),
      if_neg (by omega : ¬ n - 1 < k % m % n)] at hends
    rcases Nat.eq_zero_or_pos (m % n) with hdvd | hpos
    · exact .inl (Nat.dvd_of_mod_eq_zero hdvd)
    · right
      simp only [if_pos hpos, Nat.add_zero, Nat.mul_add, Nat.mul_one] at hends
      generalize k / m = cycles at hends ⊢
      split at hends <;> omega
  · rintro h x hx y hy
    rw [load_cycles hm hx, load_cycles hm hy]
    rcases h with hdvd | hfirst | ⟨hsecond, hnone⟩
    · rw [Nat.mod_eq_zero_of_dvd hdvd]
      simp only [Nat.not_lt_zero, if_false]
      split <;> split <;> omega
    · rw [hfirst]
      split <;> split <;> omega
    · rw [hsecond, hnone]
      split <;> split <;> omega

end Iocore.Foundation.RoundRobin
