import Iocore.Foundation.System

/-!
# Parts of a system

A part of a system is seen through a view of the state, and takes part in some
of the steps.  Its history is what it did of a run, and it is a run of the
part: whatever holds of all runs of the part holds there.
-/

namespace Iocore.Foundation

open Iocore.Foundation.System

universe u v w x

variable {σ : Type u} {α : Type v} {τ : Type w} {β : Type x}

def System.Takes (T : System τ β) (t : τ) : Option β → τ → Prop
  | none, t' => t' = t
  | some b, t' => T.step t b t'

/-- `does s a` is what the part does in the step `a` from `s`, if anything. -/
structure Part (S : System σ α) (T : System τ β) (view : σ → τ)
    (does : σ → α → Option β) : Prop where
  init : ∀ {s}, S.init s → T.init (view s)
  step : ∀ {s a s'}, S.Reachable s → S.step s a s' →
    T.Takes (view s) (does s a) (view s')

namespace Part

def history (view : σ → τ) (does : σ → α → Option β) (tr : History σ α) :
    History τ β :=
  observed (fun s a => (does s a).map fun b => (view s, b)) tr

theorem history_cons (view : σ → τ) (does : σ → α → Option β)
    (tr : History σ α) (s : σ) (a : α) :
    history view does ((s, a) :: tr) =
      ((does s a).map fun b => (view s, b)).toList ++ history view does tr :=
  observed_cons ..

theorem observed_history {γ : Type*} (view : σ → τ) (does : σ → α → Option β)
    (obs : τ → β → Option γ) (tr : History σ α) :
    observed obs (history view does tr) =
      observed (fun s a => (does s a).bind (obs (view s))) tr := by
  induction tr with
  | nil => rfl
  | cons p tr ih =>
      obtain ⟨s, a⟩ := p
      rw [history_cons, observed_cons, ← ih, observed, List.filterMap_append]
      cases does s a with
      | none => rfl
      | some b => cases h : obs (view s) b <;> simp [h, observed]

variable {S : System σ α} {T : System τ β} {view : σ → τ}
  {does : σ → α → Option β}

theorem exec (part : Part S T view does) {tr : History σ α} {s : σ}
    (run : S.Exec tr s) : T.Exec (history view does tr) (view s) := by
  induction run with
  | start init => exact .start (part.init init)
  | @next tr s s' a run step ih =>
      have hstep := part.step run.reachable step
      rw [history_cons]
      cases hb : does s a with
      | none =>
          rw [hb] at hstep
          exact (show view s' = view s from hstep) ▸ ih
      | some b =>
          rw [hb] at hstep
          exact ih.next hstep

theorem reachable (part : Part S T view does) {s : σ} (run : S.Reachable s) :
    T.Reachable (view s) :=
  run.elim fun _ exec => (part.exec exec).reachable

end Part

end Iocore.Foundation
