import Iocore.Foundation.System
import Mathlib.Algebra.BigOperators.Group.List.Basic
import Mathlib.Algebra.GroupWithZero.Nat

/-!
# Potentials

Every step of a system uses up some of a potential, and some steps add to it.
A run is then no longer than what its steps have added, and an infinite run
adds to the potential again and again.  Where a step that adds nothing is
always possible until the goal is reached, such steps lead there.
-/

namespace Iocore.Foundation

open Iocore.Foundation.System

universe u v

variable {σ : Type u} {α : Type v}

/-- A step from `s` with label `a` adds `gain s a` to the potential. -/
structure Potential (S : System σ α) (Φ : σ → ℕ) (gain : σ → α → ℕ) : Prop where
  step : ∀ {s a s'}, S.Reachable s → S.step s a s' → Φ s' < Φ s + gain s a

def System.rest (S : System σ α) (gain : σ → α → ℕ) (s : σ) : System σ α where
  init := (· = s)
  step s a s' := gain s a = 0 ∧ S.step s a s'

theorem System.Exec.ofRestrict {S : System σ α} {ok : σ → α → Prop}
    {tr : History σ α} {s : σ} (run : (S.restrict ok).Exec tr s) :
    S.Exec tr s ∧ Meets ok tr := by
  induction run with
  | start init => exact ⟨.start init, meets_nil ok⟩
  | next _ step ih =>
      exact ⟨ih.1.next step.2, meets_cons.mpr ⟨step.1, ih.2⟩⟩

theorem System.Exec.ofRest {S : System σ α} {gain : σ → α → ℕ} {s s' : σ}
    (reached : S.Reachable s) {tr : History σ α}
    (run : (S.rest gain s).Exec tr s') : S.Reachable s' := by
  induction run with
  | start init => exact init ▸ reached
  | next _ step ih => exact ih.next step.2

namespace Potential

variable {S : System σ α} {Φ : σ → ℕ} {gain : σ → α → ℕ}

theorem restrict (h : Potential S Φ gain) (ok : σ → α → Prop) :
    Potential (S.restrict ok) Φ gain where
  step reached step :=
    reached.elim fun _ run => h.step run.ofRestrict.1.reachable step.2

theorem length_add_le (h : Potential S Φ gain) (start : ∀ {s}, S.init s → Φ s = 0)
    {tr : History σ α} {s : σ} (run : S.Exec tr s) :
    tr.length + Φ s ≤ (tr.map fun p => gain p.1 p.2).sum := by
  induction run with
  | start init => simp [start init]
  | next run step ih =>
      have hstep := h.step run.reachable step
      simp only [List.length_cons, List.map_cons, List.sum_cons]
      omega

/-- Steps that add nothing come to an end. -/
theorem length_le (h : Potential S Φ gain) {s : σ} (reached : S.Reachable s)
    {tr : History σ α} {s' : σ} (run : (S.rest gain s).Exec tr s') :
    tr.length + Φ s' ≤ Φ s := by
  induction run with
  | start init =>
      obtain rfl := init
      simp
  | next run step ih =>
      have hstep := h.step (run.ofRest reached) step.2
      rw [step.1] at hstep
      rw [List.length_cons]
      omega

theorem recurs (h : Potential S Φ gain) (run : S.InfiniteRun) (m : ℕ) :
    ∃ n, m ≤ n ∧ 0 < gain (run.states n) (run.actions n) := by
  by_contra! hnone
  have hfalls (k : ℕ) : k + Φ (run.states (m + k)) ≤ Φ (run.states m) := by
    induction k with
    | zero => simp
    | succ k ih =>
        have hstep := h.step (run.exec (m + k)).reachable (run.step (m + k))
        have hzero := hnone (m + k) (Nat.le_add_right m k)
        rw [← Nat.add_assoc]
        omega
  have := hfalls (Φ (run.states m) + 1)
  omega

/-- If a step that adds nothing is possible short of the goal, it is reached. -/
theorem completes (h : Potential S Φ gain) {Goal : σ → Prop}
    (progress : ∀ {s}, S.Reachable s → ¬ Goal s →
      ∃ a s', gain s a = 0 ∧ S.step s a s')
    {s : σ} (reached : S.Reachable s) :
    ∃ s', (S.rest gain s).Reachable s' ∧ Goal s' := by
  induction hΦ : Φ s using Nat.strongRecOn generalizing s with
  | _ n ih =>
      by_cases hgoal : Goal s
      · exact ⟨s, .start rfl, hgoal⟩
      · obtain ⟨a, s₁, hgain, hstep⟩ := progress reached hgoal
        have hless := h.step reached hstep
        rw [hgain, Nat.add_zero, hΦ] at hless
        obtain ⟨s', hrest, hgoal'⟩ := ih _ hless (reached.next hstep) rfl
        have hfirst : (S.rest gain s).Reachable s₁ :=
          (Reachable.start (rfl : s = s)).next ⟨hgain, hstep⟩
        exact ⟨s', hfirst.trans hrest, hgoal'⟩

end Potential

end Iocore.Foundation
