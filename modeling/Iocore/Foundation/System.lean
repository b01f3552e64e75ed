import Mathlib.Data.List.Basic

/-!
# Transition systems and their executions

A system is a set of initial states and a labelled step relation.  An
execution carries its whole history, newest step first: every entry is the
state a step was taken in and the label of that step.  Invariants, conditions
on the steps of a run, and refinements are all stated over executions.
-/

namespace Iocore.Foundation

universe u v w x

theorem filterMap_cons_toList {α : Type u} {β : Type v} (f : α → Option β)
    (a : α) (l : List α) :
    (a :: l).filterMap f = (f a).toList ++ l.filterMap f := by
  cases h : f a <;> simp [h]

structure System (σ : Type u) (α : Type v) where
  init : σ → Prop
  step : σ → α → σ → Prop

/-- A history lists the steps of an execution, newest first. -/
abbrev History (σ : Type u) (α : Type v) := List (σ × α)

def visited {σ : Type u} {α : Type v} (tr : History σ α) (s : σ) : List σ :=
  s :: tr.map Prod.fst

@[simp] theorem mem_visited_nil {σ : Type u} {α : Type v} {s y : σ} :
    y ∈ visited ([] : History σ α) s ↔ y = s := by
  simp [visited]

@[simp] theorem mem_visited_cons {σ : Type u} {α : Type v} {tr : History σ α}
    {s s' y : σ} {a : α} :
    y ∈ visited ((s, a) :: tr) s' ↔ y = s' ∨ y ∈ visited tr s := by
  simp [visited]

namespace System

variable {σ : Type u} {α : Type v} {τ : Type w} {β : Type x}

inductive Exec (S : System σ α) : History σ α → σ → Prop
  | start {s : σ} (init : S.init s) : Exec S [] s
  | next {tr : History σ α} {s s' : σ} {a : α} (run : Exec S tr s)
      (step : S.step s a s') : Exec S ((s, a) :: tr) s'

def Reachable (S : System σ α) (s : σ) : Prop := ∃ tr, S.Exec tr s

theorem Reachable.start {S : System σ α} {s : σ} (init : S.init s) :
    S.Reachable s :=
  ⟨[], .start init⟩

theorem Reachable.next {S : System σ α} {s s' : σ} {a : α}
    (run : S.Reachable s) (step : S.step s a s') : S.Reachable s' :=
  run.elim fun _ exec => ⟨_, exec.next step⟩

theorem Exec.reachable {S : System σ α} {tr : History σ α} {s : σ}
    (run : S.Exec tr s) : S.Reachable s :=
  ⟨tr, run⟩

theorem Reachable.trans {S : System σ α} {s s' : σ} (run : S.Reachable s)
    (rest : Reachable ⟨(· = s), S.step⟩ s') : S.Reachable s' := by
  obtain ⟨tr, exec⟩ := rest
  induction exec with
  | start init => exact init ▸ run
  | next _ step ih => exact ih.next step

/-! ## Invariants -/

structure Inductive (S : System σ α) (P : σ → Prop) : Prop where
  init : ∀ {s}, S.init s → P s
  step : ∀ {s a s'}, P s → S.step s a s' → P s'

theorem Inductive.exec {S : System σ α} {P : σ → Prop} (hP : S.Inductive P)
    {tr : History σ α} {s : σ} (run : S.Exec tr s) : P s := by
  induction run with
  | start init => exact hP.init init
  | next _ step ih => exact hP.step ih step

theorem Inductive.reachable {S : System σ α} {P : σ → Prop}
    (hP : S.Inductive P) {s : σ} (run : S.Reachable s) : P s :=
  run.elim fun _ exec => hP.exec exec

theorem Reachable.invariant {S : System σ α} {P : σ → Prop}
    (init : ∀ {s}, S.init s → P s)
    (step : ∀ {s a s'}, S.Reachable s → P s → S.step s a s' → P s')
    {s : σ} (run : S.Reachable s) : P s := by
  obtain ⟨tr, exec⟩ := run
  induction exec with
  | start h => exact init h
  | next exec h ih => exact step exec.reachable ih h

theorem Inductive.visited {S : System σ α} {P : σ → Prop} (hP : S.Inductive P)
    {tr : History σ α} {s : σ} (run : S.Exec tr s) :
    ∀ y ∈ visited tr s, P y := by
  induction run with
  | start init =>
      intro y hy
      rw [mem_visited_nil] at hy
      exact hy ▸ hP.init init
  | next run step ih =>
      intro y hy
      rcases mem_visited_cons.mp hy with rfl | hy
      · exact hP.step (hP.exec run) step
      · exact ih y hy

theorem Exec.historyInvariant {S : System σ α} (P : History σ α → σ → Prop)
    (init : ∀ {s}, S.init s → P [] s)
    (step : ∀ {tr s a s'}, S.Exec tr s → P tr s → S.step s a s' →
      P ((s, a) :: tr) s')
    {tr : History σ α} {s : σ} (run : S.Exec tr s) : P tr s := by
  induction run with
  | start h => exact init h
  | next run h ih => exact step run ih h

theorem Exec.past {S : System σ α} {later past : History σ α} {s : σ}
    (run : S.Exec (later ++ past) s) : ∃ y, S.Exec past y := by
  induction later generalizing s with
  | nil => exact ⟨s, run⟩
  | cons p later ih =>
      cases run with
      | next run step => exact ih run

/-! ## Infinite executions -/

structure InfiniteRun (S : System σ α) where
  states : ℕ → σ
  actions : ℕ → α
  init : S.init (states 0)
  step : ∀ n, S.step (states n) (actions n) (states (n + 1))

namespace InfiniteRun

variable {S : System σ α} (run : S.InfiniteRun)

def history : ℕ → History σ α
  | 0 => []
  | n + 1 => (run.states n, run.actions n) :: history n

@[simp] theorem length_history (n : ℕ) : (run.history n).length = n := by
  induction n with
  | zero => rfl
  | succ n ih => rw [history, List.length_cons, ih]

theorem exec (n : ℕ) : S.Exec (run.history n) (run.states n) := by
  induction n with
  | zero => exact .start run.init
  | succ n ih => exact ih.next (run.step n)

end InfiniteRun

/-! ## Conditions on the steps of a run -/

def Meets (ok : σ → α → Prop) (tr : History σ α) : Prop :=
  ∀ p ∈ tr, ok p.1 p.2

instance {ok : σ → α → Prop} [∀ s a, Decidable (ok s a)] (tr : History σ α) :
    Decidable (Meets ok tr) :=
  inferInstanceAs (Decidable (∀ p ∈ tr, ok p.1 p.2))

@[simp] theorem meets_nil (ok : σ → α → Prop) : Meets ok [] := by
  simp [Meets]

@[simp] theorem meets_cons {ok : σ → α → Prop} {tr : History σ α} {s : σ}
    {a : α} : Meets ok ((s, a) :: tr) ↔ ok s a ∧ Meets ok tr := by
  simp [Meets]

def restrict (S : System σ α) (ok : σ → α → Prop) : System σ α where
  init := S.init
  step s a s' := ok s a ∧ S.step s a s'

theorem Exec.restrict {S : System σ α} {ok : σ → α → Prop}
    {tr : History σ α} {s : σ} (run : S.Exec tr s) (hok : Meets ok tr) :
    (S.restrict ok).Exec tr s := by
  induction run with
  | start init => exact .start init
  | next _ step ih =>
      obtain ⟨hstep, hrest⟩ := meets_cons.mp hok
      exact (ih hrest).next ⟨hstep, step⟩

theorem Inductive.restrict {S : System σ α} {P : σ → Prop}
    (hP : S.Inductive P) (ok : σ → α → Prop) : (S.restrict ok).Inductive P where
  init := hP.init
  step h hstep := hP.step h hstep.2

/--
The exact condition of a safety property.  `I` is an invariant of the steps
that `ok` allows and implies `P`; a step that `ok` forbids leads from `I` out
of `P`.  Then a run stays in `P` precisely when all its steps meet `ok`.
-/
theorem Exec.safe_iff_meets {S : System σ α} {ok : σ → α → Prop}
    {I P : σ → Prop} (hI : (S.restrict ok).Inductive I)
    (safe : ∀ {s}, I s → P s)
    (breaks : ∀ {s a s'}, I s → S.step s a s' → ¬ ok s a → ¬ P s')
    {tr : History σ α} {s : σ} (run : S.Exec tr s) :
    (∀ y ∈ Foundation.visited tr s, P y) ↔ Meets ok tr := by
  constructor
  · intro hP
    induction run with
    | start => exact meets_nil ok
    | next run step ih =>
        have hbefore := ih fun y hy => hP y (mem_visited_cons.mpr (.inr hy))
        refine meets_cons.mpr ⟨?_, hbefore⟩
        by_contra hbad
        exact breaks (hI.exec (run.restrict hbefore)) step hbad
          (hP _ (mem_visited_cons.mpr (.inl rfl)))
  · intro hok y hy
    exact safe (hI.visited (run.restrict hok) y hy)

/-- Where `P` holds, `ok` says exactly which steps keep it. -/
theorem Exec.safe_iff_meets_of_step_iff {S : System σ α} {ok : σ → α → Prop}
    {J P : σ → Prop} (hJ : S.Inductive J) (init : ∀ {s}, S.init s → P s)
    (step_iff : ∀ {s a s'}, J s → P s → S.step s a s' → (P s' ↔ ok s a))
    {tr : History σ α} {s : σ} (run : S.Exec tr s) :
    (∀ y ∈ Foundation.visited tr s, P y) ↔ Meets ok tr := by
  refine run.safe_iff_meets (I := fun s => J s ∧ P s) ?_ And.right ?_
  · constructor
    · intro s hs
      exact ⟨hJ.init hs, init hs⟩
    · rintro s a s' ⟨hbefore, hP⟩ ⟨hok, step⟩
      exact ⟨hJ.step hbefore step, (step_iff hbefore hP step).mpr hok⟩
  · rintro s a s' ⟨hbefore, hP⟩ step hbad hafter
    exact hbad ((step_iff hbefore hP step).mp hafter)

/-! ## Refinement -/

/--
A forward simulation: `obs` names the abstract step, if any, that a concrete
step stands for, and `R` relates the two states throughout.
-/
structure Simulation (S : System σ α) (A : System τ β)
    (obs : σ → α → Option β) (R : σ → τ → Prop) : Prop where
  init : ∀ {s}, S.init s → ∃ t, A.init t ∧ R s t
  step : ∀ {s t a s'}, S.Reachable s → R s t → S.step s a s' →
    match obs s a with
    | none => R s' t
    | some b => ∃ t', A.step t b t' ∧ R s' t'

def observed (obs : σ → α → Option β) (tr : History σ α) : List β :=
  tr.filterMap fun p => obs p.1 p.2

theorem observed_cons (obs : σ → α → Option β) (s : σ) (a : α)
    (tr : History σ α) :
    observed obs ((s, a) :: tr) = (obs s a).toList ++ observed obs tr :=
  filterMap_cons_toList _ (s, a) tr

theorem Simulation.exec {S : System σ α} {A : System τ β}
    {obs : σ → α → Option β} {R : σ → τ → Prop} (sim : S.Simulation A obs R)
    {tr : History σ α} {s : σ} (run : S.Exec tr s) :
    ∃ tr' t, A.Exec tr' t ∧ tr'.map Prod.snd = observed obs tr ∧ R s t := by
  induction run with
  | start init =>
      obtain ⟨t, ht, hR⟩ := sim.init init
      exact ⟨[], t, .start ht, rfl, hR⟩
  | @next tr s s' a run step ih =>
      obtain ⟨tr', t, habs, hobs, hR⟩ := ih
      have hstep := sim.step run.reachable hR step
      cases hb : obs s a with
      | none =>
          rw [hb] at hstep
          exact ⟨tr', t, habs, by simpa [observed, hb] using hobs, hstep⟩
      | some b =>
          rw [hb] at hstep
          obtain ⟨t', ht', hR'⟩ := hstep
          refine ⟨(t, b) :: tr', t', habs.next ht', ?_, hR'⟩
          simpa [observed, hb] using hobs

/-! ## Systems given by a step function -/

def ofFunction {ε : Type w} (init : σ → Prop)
    (exec : σ → α → Except ε σ) : System σ α where
  init := init
  step s a s' := exec s a = .ok s'

def record {ε : Type w} (exec : σ → α → Except ε σ) :
    List α → History σ α → σ → Except ε (History σ α × σ)
  | [], tr, s => .ok (tr, s)
  | a :: rest, tr, s =>
      match exec s a with
      | .error e => .error e
      | .ok s' => record exec rest ((s, a) :: tr) s'

theorem Exec.record {ε : Type w} {init : σ → Prop}
    {exec : σ → α → Except ε σ} (labels : List α) {tr tr' : History σ α}
    {s s' : σ} (run : (ofFunction init exec).Exec tr s)
    (h : System.record exec labels tr s = .ok (tr', s')) :
    (ofFunction init exec).Exec tr' s' := by
  induction labels generalizing tr s with
  | nil =>
      cases h
      exact run
  | cons a rest ih =>
      cases hstep : exec s a with
      | error e => simp [System.record, hstep] at h
      | ok next =>
          simp only [System.record, hstep] at h
          exact ih (run.next hstep) h

theorem Exec.ofRecord {ε : Type w} {init : σ → Prop}
    (exec : σ → α → Except ε σ) (s : σ) (labels : List α)
    (test : History σ α × σ → Bool) (hs : init s)
    (h : (System.record exec labels [] s).map test = .ok true) :
    ∃ tr s', (ofFunction init exec).Exec tr s' ∧ test (tr, s') = true := by
  cases hr : System.record exec labels [] s with
  | error e => simp [hr, Except.map] at h
  | ok result =>
      obtain ⟨tr, s'⟩ := result
      exact ⟨tr, s', (Exec.start hs).record labels hr, by
        simpa [hr, Except.map] using h⟩

end System

end Iocore.Foundation
