import Mathlib.Data.List.Nodup
import Mathlib.Logic.Function.Basic

/-!
# Counting references

Each of a changing collection of holders has a pointer that may be null.  The
references to a resource are the holders that point to it.  What creating a
holder, redirecting its pointer and removing it do to the count of any resource
depends only on what the pointer was and what it becomes.
-/

namespace Iocore.Foundation

universe u v

variable {ι : Type u} {ρ : Type v} [DecidableEq ρ]

def ref (x : Option ρ) (r : ρ) : ℕ := if x = some r then 1 else 0

def refs (live : List ι) (ptr : ι → Option ρ) (r : ρ) : ℕ :=
  live.countP fun i => ptr i = some r

/-! ## What one pointer contributes -/

section Contribution

variable {x y : Option ρ} {r : ρ}

@[simp] theorem ref_none (r : ρ) : ref none r = 0 := by
  simp [ref]

@[simp] theorem ref_self (r : ρ) : ref (some r) r = 1 := by
  simp [ref]

theorem ref_pos : 0 < ref x r ↔ x = some r := by
  by_cases h : x = some r <;> simp [ref, h]

theorem ref_injective : Function.Injective (ref : Option ρ → ρ → ℕ) := by
  intro x y h
  have hsame (r : ρ) : x = some r ↔ y = some r := by
    rw [← ref_pos, ← ref_pos, h]
  cases x with
  | some r => exact ((hsame r).mp rfl).symm
  | none =>
      cases y with
      | none => rfl
      | some r => exact (hsame r).mpr rfl

end Contribution

/-! ## A tally of resources -/

section Tally

variable (f : ρ → ℕ) (r s : ρ)

theorem update_add_one : Function.update f r (f r + 1) s = f s + ref (some r) s := by
  by_cases h : s = r
  · subst h
    simp
  · simp [ref, h, Ne.symm h]

theorem update_sub_one : Function.update f r (f r - 1) s = f s - ref (some r) s := by
  by_cases h : s = r
  · subst h
    simp
  · simp [ref, h, Ne.symm h]

end Tally

/-! ## All references -/

variable {live : List ι} (ptr : ι → Option ρ) {i : ι} (x : Option ρ) (r : ρ)

@[simp] theorem refs_nil : refs [] ptr r = 0 := rfl

theorem refs_cons : refs (i :: live) ptr r = refs live ptr r + ref (ptr i) r := by
  simp [refs, ref, List.countP_cons]

theorem refs_append (l m : List ι) :
    refs (l ++ m) ptr r = refs l ptr r + refs m ptr r :=
  List.countP_append

theorem ref_le_refs (hi : i ∈ live) : ref (ptr i) r ≤ refs live ptr r := by
  by_cases hr : ptr i = some r
  · have hpos : 0 < refs live ptr r :=
      List.countP_pos_iff.mpr ⟨i, hi, decide_eq_true hr⟩
    rw [hr, ref_self]
    exact hpos
  · simp [ref, hr]

variable [DecidableEq ι]

theorem refs_erase (hi : i ∈ live) :
    refs (live.erase i) ptr r + ref (ptr i) r = refs live ptr r := by
  rw [← refs_cons]
  exact (List.perm_cons_erase hi).symm.countP_eq _

theorem refs_update_of_notMem (hi : i ∉ live) :
    refs live (Function.update ptr i x) r = refs live ptr r := by
  refine List.countP_congr fun j hj => ?_
  have hne : j ≠ i := fun e => hi (e ▸ hj)
  rw [Function.update_of_ne hne]

theorem refs_update (hlive : live.Nodup) (hi : i ∈ live) :
    refs live (Function.update ptr i x) r + ref (ptr i) r =
      refs live ptr r + ref x r := by
  rw [← refs_erase _ r hi, ← refs_erase ptr r hi, Function.update_self,
    refs_update_of_notMem _ _ _ hlive.not_mem_erase]
  omega

theorem refs_create (hi : i ∉ live) :
    refs (i :: live) (Function.update ptr i x) r =
      refs live ptr r + ref x r := by
  rw [refs_cons, Function.update_self, refs_update_of_notMem _ _ _ hi]

variable {ptr r} in
theorem existsUnique_of_refs_eq_one (hone : refs live ptr r = 1) :
    ∃! i, i ∈ live ∧ ptr i = some r := by
  obtain ⟨i, hi, hptr⟩ : ∃ i ∈ live, decide (ptr i = some r) = true :=
    List.countP_pos_iff.mp (by
      change 0 < refs live ptr r
      omega)
  have hptr := of_decide_eq_true hptr
  refine ⟨i, ⟨hi, hptr⟩, ?_⟩
  rintro j ⟨hj, hptr'⟩
  by_contra hne
  have herase := refs_erase ptr r hi
  have hle := ref_le_refs ptr r
    ((List.mem_erase_of_ne hne).mpr hj)
  rw [hptr, ref_self] at herase
  rw [hptr', ref_self] at hle
  omega

/-! ## Holders by number -/

/-- Holders are numbered in the order of their creation. -/
structure Numbered (live : List ℕ) (next : ℕ) : Prop where
  nodup : live.Nodup
  lt : ∀ i ∈ live, i < next

namespace Numbered

variable {live : List ℕ} {next : ℕ}

theorem empty : Numbered [] next :=
  ⟨List.nodup_nil, fun _ h => absurd h List.not_mem_nil⟩

theorem notMem (h : Numbered live next) : next ∉ live :=
  fun hin => Nat.lt_irrefl _ (h.lt _ hin)

theorem create (h : Numbered live next) :
    Numbered (next :: live) (next + 1) where
  nodup := List.nodup_cons.mpr ⟨h.notMem, h.nodup⟩
  lt i hi := by
    rcases List.mem_cons.mp hi with rfl | hi
    · exact Nat.lt_succ_self _
    · exact Nat.lt_succ_of_lt (h.lt i hi)

theorem sublist (h : Numbered live next) {rest : List ℕ}
    (hrest : rest.Sublist live) : Numbered rest next :=
  ⟨h.nodup.sublist hrest, fun i hi => h.lt i (hrest.subset hi)⟩

end Numbered

end Iocore.Foundation
