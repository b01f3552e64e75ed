import Iocore.Foundation.System
import Mathlib.Algebra.Order.BigOperators.Group.Finset
import Mathlib.Data.Fintype.BigOperators

/-!
# Contended exchange loops

Threads share a cell.  A call of a thread brings a value and goes round a
loop: it loads the cell, leaves if its value is no better, and otherwise tries
to exchange the cell it loaded for its value.  The exchange fails if the cell
has changed since the load.  A successful exchange makes the cell better, so
no call succeeds twice, and nothing makes a value eligible again.

A thread's own part of this is whether its value is better than the cell, and
whether it holds a snapshot of the cell and that snapshot is stale.  From the
order of the events alone: every failure has a success of another thread
behind it, and no call tries more often than there are calls.
-/

namespace Iocore.Foundation

universe u

inductive LoopEvent (ι : Type u) where
  | begin (i : ι)
  | load (i : ι)
  | success (i : ι)
  | failure (i : ι)
  deriving DecidableEq, Repr

structure Contender where
  eligible : Bool
  stale : Option Bool
  deriving DecidableEq, Repr

variable {ι : Type u}

namespace LoopEvent

def actor : LoopEvent ι → ι
  | begin i | load i | success i | failure i => i

def isSuccess : LoopEvent ι → Bool
  | success _ => true
  | _ => false

def isBegin : LoopEvent ι → Bool
  | begin _ => true
  | _ => false

end LoopEvent

/-- A success of thread `i` may make the snapshots of others stale. -/
inductive LoopStep (f f' : ι → Contender) : LoopEvent ι → Prop
  | begin (i : ι) (none : (f' i).stale = none)
      (others : ∀ j, j ≠ i → f' j = f j) : LoopStep f f' (.begin i)
  | load (i : ι) (kept : (f' i).eligible = true → (f i).eligible = true)
      (fresh : (f' i).stale ≠ some true)
      (others : ∀ j, j ≠ i → f' j = f j) : LoopStep f f' (.load i)
  | success (i : ι) (eligible : (f i).eligible = true)
      (fresh : (f i).stale = some false) (spent : (f' i).eligible = false)
      (none : (f' i).stale = none)
      (kept : ∀ j, j ≠ i → (f' j).eligible = true → (f j).eligible = true)
      (holds : ∀ j, j ≠ i → (f' j).stale.isSome = (f j).stale.isSome) :
      LoopStep f f' (.success i)
  | failure (i : ι) (kept : (f' i).eligible = true → (f i).eligible = true)
      (stale : (f i).stale = some true) (none : (f' i).stale = none)
      (others : ∀ j, j ≠ i → f' j = f j) : LoopStep f f' (.failure i)

def contention (ι : Type u) : System (ι → Contender) (LoopEvent ι) where
  init f := f = fun _ => ⟨false, none⟩
  step f e f' := LoopStep f f' e

variable [DecidableEq ι]

def current (i : ι) (events : List (LoopEvent ι)) : List (LoopEvent ι) :=
  events.takeWhile (· ≠ .begin i)

def bodies (i : ι) (events : List (LoopEvent ι)) : ℕ :=
  (current i events).count (.success i) + (current i events).count (.failure i)

theorem current_begin (i : ι) (events : List (LoopEvent ι)) :
    current i (.begin i :: events) = [] := by
  simp [current]

theorem current_cons {i : ι} {e : LoopEvent ι} (h : e ≠ .begin i)
    (events : List (LoopEvent ι)) :
    current i (e :: events) = e :: current i events := by
  simp [current, h]

theorem bodies_begin (i : ι) (events : List (LoopEvent ι)) :
    bodies i (.begin i :: events) = 0 := by
  simp [bodies, current_begin]

theorem bodies_cons {i : ι} {e : LoopEvent ι} (h : e ≠ .begin i)
    (events : List (LoopEvent ι)) :
    bodies i (e :: events) = bodies i events +
      if e = .success i ∨ e = .failure i then 1 else 0 := by
  rw [bodies, current_cons h, List.count_cons, List.count_cons, bodies]
  by_cases hsuccess : e = .success i
  · subst hsuccess
    simp
    omega
  by_cases hfailure : e = .failure i
  · subst hfailure
    simp
    omega
  · simp [hsuccess, hfailure]

theorem bodies_of_actor_ne {i : ι} {e : LoopEvent ι} (h : e.actor ≠ i)
    (events : List (LoopEvent ι)) : bodies i (e :: events) = bodies i events := by
  have hne : ∀ c : ι → LoopEvent ι, (∀ j, (c j).actor = j) → e ≠ c i := by
    rintro c hc rfl
    exact h (hc i)
  rw [bodies_cons (hne .begin fun _ => rfl), if_neg, Nat.add_zero]
  rintro (he | he)
  · exact hne .success (fun _ => rfl) he
  · exact hne .failure (fun _ => rfl) he

/-- Since its last load the thread did nothing, and another one succeeded if told. -/
def Loaded (i : ι) (events : List (LoopEvent ι)) (stale : Bool) : Prop :=
  ∃ recent earlier, events = recent ++ .load i :: earlier ∧
    (∀ e ∈ recent, e.actor ≠ i) ∧ (stale = true → ∃ j, .success j ∈ recent)

omit [DecidableEq ι] in
theorem Loaded.cons {i : ι} {events : List (LoopEvent ι)} {stale stale' : Bool}
    (h : Loaded i events stale) {e : LoopEvent ι} (hother : e.actor ≠ i)
    (told : stale' = true → stale = true ∨ ∃ j, e = .success j) :
    Loaded i (e :: events) stale' := by
  obtain ⟨recent, earlier, rfl, hrecent, hsuccess⟩ := h
  refine ⟨e :: recent, earlier, rfl, ?_, fun hstale => ?_⟩
  · intro e' he'
    rcases List.mem_cons.mp he' with rfl | he'
    · exact hother
    · exact hrecent e' he'
  · rcases told hstale with hbefore | ⟨j, rfl⟩
    · obtain ⟨j, hj⟩ := hsuccess hbefore
      exact ⟨j, List.mem_cons_of_mem e hj⟩
    · exact ⟨j, List.mem_cons_self⟩

structure Contended (events : List (LoopEvent ι)) (f : ι → Contender) :
    Prop where
  once : ∀ i, (current i events).count (.success i) +
    (f i).eligible.toNat ≤ 1
  paid : ∀ i, events.count (.success i) + (f i).eligible.toNat ≤
    events.count (.begin i)
  rivals : ∀ i, bodies i events + (if (f i).stale = some true then 1 else 0) ≤
    events.countP LoopEvent.isSuccess
  loaded : ∀ i b, (f i).stale = some b → Loaded i events b

namespace Contended

variable {events : List (LoopEvent ι)} {f f' : ι → Contender} {e : LoopEvent ι}

theorem initial : Contended [] fun _ : ι => ⟨false, none⟩ where
  once _ := by simp [current]
  paid _ := by simp
  rivals _ := by simp [bodies, current]
  loaded _ _ h := by cases h

omit [DecidableEq ι] in
private theorem eligible_le (h : LoopStep f f' e) {i : ι} (hi : e ≠ .begin i) :
    (f' i).eligible.toNat ≤ (f i).eligible.toNat := by
  refine Bool.toNat_le_toNat fun heligible => ?_
  cases h with
  | begin j none others =>
      have hij : i ≠ j := fun hij => hi (hij ▸ rfl)
      rwa [others i hij] at heligible
  | load j kept fresh others =>
      by_cases hij : i = j
      · exact hij ▸ kept (hij ▸ heligible)
      · rwa [others i hij] at heligible
  | success j eligible fresh spent none kept holds =>
      by_cases hij : i = j
      · exact hij ▸ eligible
      · exact kept i hij heligible
  | failure j kept stale none others =>
      by_cases hij : i = j
      · exact hij ▸ kept (hij ▸ heligible)
      · rwa [others i hij] at heligible

omit [DecidableEq ι] in
private theorem eligible_success {i : ι} (h : LoopStep f f' (.success i)) :
    (f i).eligible.toNat = 1 ∧ (f' i).eligible.toNat = 0 := by
  cases h with
  | success _ eligible fresh spent none kept holds =>
      rw [eligible, spent]
      exact ⟨rfl, rfl⟩

private theorem once_step (h : Contended events f) (step : LoopStep f f' e)
    (i : ι) : (current i (e :: events)).count (.success i) +
      (f' i).eligible.toNat ≤ 1 := by
  have honce := h.once i
  by_cases hbegin : e = .begin i
  · subst hbegin
    rw [current_begin, List.count_nil, Nat.zero_add]
    exact Bool.toNat_le _
  rw [current_cons hbegin, List.count_cons]
  by_cases hsuccess : e = .success i
  · subst hsuccess
    have hspent := eligible_success step
    rw [if_pos (beq_self_eq_true _)]
    omega
  · have hle := eligible_le step hbegin
    rw [if_neg (by simpa using hsuccess)]
    omega

private theorem paid_step (h : Contended events f) (step : LoopStep f f' e)
    (i : ι) : (e :: events).count (.success i) + (f' i).eligible.toNat ≤
      (e :: events).count (.begin i) := by
  have hpaid := h.paid i
  rw [List.count_cons, List.count_cons]
  by_cases hbegin : e = .begin i
  · subst hbegin
    have hle := Bool.toNat_le (f' i).eligible
    rw [if_neg (by simp), if_pos (beq_self_eq_true _)]
    omega
  by_cases hsuccess : e = .success i
  · subst hsuccess
    have hspent := eligible_success step
    rw [if_pos (beq_self_eq_true _), if_neg (by simp)]
    omega
  · have hle := eligible_le step hbegin
    rw [if_neg (by simpa using hsuccess), if_neg (by simpa using hbegin)]
    omega

/-- A failure uses up a stale snapshot, and only a success makes one stale. -/
private theorem rivals_step (h : Contended events f) (step : LoopStep f f' e)
    (i : ι) : bodies i (e :: events) +
      (if (f' i).stale = some true then 1 else 0) ≤
        (e :: events).countP LoopEvent.isSuccess := by
  have hrivals := h.rivals i
  rw [List.countP_cons]
  cases step with
  | begin j none others =>
      by_cases hij : i = j
      · subst hij
        simp [bodies_begin, none]
      · have hne : LoopEvent.begin j ≠ .begin i := fun e => hij (by cases e; rfl)
        simpa [bodies_cons hne, others i hij, LoopEvent.isSuccess] using hrivals
  | load j kept fresh others =>
      rw [bodies_cons (by simp)]
      by_cases hij : i = j
      · subst hij
        simp [fresh, LoopEvent.isSuccess]
        omega
      · simpa [others i hij, LoopEvent.isSuccess] using hrivals
  | success j eligible fresh spent none kept holds =>
      rw [bodies_cons (by simp)]
      by_cases hij : i = j
      · subst hij
        simp [none, LoopEvent.isSuccess]
        omega
      · have hne : j ≠ i := fun e => hij e.symm
        simp only [LoopEvent.success.injEq, hne, reduceCtorEq, or_self,
          if_false, LoopEvent.isSuccess, if_true]
        split <;> omega
  | failure j kept stale none others =>
      rw [bodies_cons (by simp)]
      by_cases hij : i = j
      · subst hij
        rw [if_pos stale] at hrivals
        simpa [none, LoopEvent.isSuccess] using hrivals
      · have hne : j ≠ i := fun e => hij e.symm
        simpa [others i hij, hne, LoopEvent.isSuccess] using hrivals

omit [DecidableEq ι] in
private theorem loaded_step {events : List (LoopEvent ι)}
    (h : ∀ i b, (f i).stale = some b → Loaded i events b)
    (step : LoopStep f f' e) (i : ι) (b : Bool)
    (hb : (f' i).stale = some b) : Loaded i (e :: events) b := by
  cases step with
  | begin j none others =>
      by_cases hij : i = j
      · subst hij
        simp [none] at hb
      · rw [others i hij] at hb
        exact (h i b hb).cons (fun e => hij e.symm) .inl
  | load j kept fresh others =>
      by_cases hij : i = j
      · subst hij
        rw [hb] at fresh
        refine ⟨[], events, rfl, by simp, fun hstale => ?_⟩
        exact absurd (congrArg some hstale) fresh
      · rw [others i hij] at hb
        exact (h i b hb).cons (fun e => hij e.symm) .inl
  | success j eligible fresh spent none kept holds =>
      by_cases hij : i = j
      · subst hij
        simp [none] at hb
      · have hsome := holds i hij
        rw [hb, Option.isSome_some] at hsome
        obtain ⟨b', hb'⟩ := Option.isSome_iff_exists.mp hsome.symm
        exact (h i b' hb').cons (fun e => hij e.symm) fun _ => .inr ⟨j, rfl⟩
  | failure j kept stale none others =>
      by_cases hij : i = j
      · subst hij
        simp [none] at hb
      · rw [others i hij] at hb
        exact (h i b hb).cons (fun e => hij e.symm) .inl

theorem step (h : Contended events f) (hstep : LoopStep f f' e) :
    Contended (e :: events) f' where
  once := h.once_step hstep
  paid := h.paid_step hstep
  rivals := h.rivals_step hstep
  loaded := loaded_step h.loaded hstep

end Contended

/-! ## Runs -/

theorem contended_exec {tr : History (ι → Contender) (LoopEvent ι)}
    {f : ι → Contender} (run : (contention ι).Exec tr f) :
    Contended (tr.map Prod.snd) f := by
  refine System.Exec.historyInvariant
    (fun tr f => Contended (tr.map Prod.snd) f) ?_ ?_ run
  · rintro f rfl
    exact .initial
  · intro tr f e f' _ h step
    exact h.step step

private theorem countP_eq_sum_count [Fintype ι] (events : List (LoopEvent ι))
    (p : LoopEvent ι → Bool) (c : ι → LoopEvent ι)
    (hp : ∀ e, (if p e = true then 1 else 0) = ∑ i, if e = c i then 1 else 0) :
    events.countP p = ∑ i, events.count (c i) := by
  induction events with
  | nil => simp
  | cons e events ih =>
      simp only [List.countP_cons, List.count_cons, Finset.sum_add_distrib, ih,
        hp, beq_iff_eq]

theorem countP_isSuccess [Fintype ι] (events : List (LoopEvent ι)) :
    events.countP LoopEvent.isSuccess = ∑ i, events.count (.success i) := by
  refine countP_eq_sum_count events _ _ fun e => ?_
  cases e <;> simp [LoopEvent.isSuccess]

theorem countP_isBegin [Fintype ι] (events : List (LoopEvent ι)) :
    events.countP LoopEvent.isBegin = ∑ i, events.count (.begin i) := by
  refine countP_eq_sum_count events _ _ fun e => ?_
  cases e <;> simp [LoopEvent.isBegin]

theorem Contended.successes_le [Fintype ι] {events : List (LoopEvent ι)}
    {f : ι → Contender} (h : Contended events f) :
    events.countP LoopEvent.isSuccess ≤ events.countP LoopEvent.isBegin := by
  rw [countP_isSuccess, countP_isBegin]
  exact Finset.sum_le_sum fun i _ => (Nat.le_add_right _ _).trans (h.paid i)

/--
The bounds on a contended loop with so many calls: no call succeeds twice, a
failure follows a success of another thread since the load, and no call goes
round more often than there are calls.
-/
structure LoopBounded (calls : ℕ) (events : List (LoopEvent ι)) : Prop where
  once : ∀ i past, past <:+ events → (current i past).count (.success i) ≤ 1
  rival : ∀ i past, .failure i :: past <:+ events → ∃ recent earlier,
    past = recent ++ .load i :: earlier ∧ (∀ e ∈ recent, e.actor ≠ i) ∧
      ∃ j, j ≠ i ∧ .success j ∈ recent
  bodies : ∀ i past, past <:+ events → bodies i past ≤ calls

theorem loopBounded_exec [Fintype ι] {tr : History (ι → Contender) (LoopEvent ι)}
    {f : ι → Contender} (run : (contention ι).Exec tr f) :
    LoopBounded ((tr.map Prod.snd).countP LoopEvent.isBegin)
      (tr.map Prod.snd) := by
  have hpast : ∀ past, past <:+ tr.map Prod.snd →
      ∃ trp g, (contention ι).Exec trp g ∧ trp.map Prod.snd = past := by
    rintro past ⟨later, hlater⟩
    obtain ⟨trl, trp, rfl, -, rfl⟩ := List.map_eq_append_iff.mp hlater.symm
    obtain ⟨g, runp⟩ := run.past
    exact ⟨trp, g, runp, rfl⟩
  constructor
  · intro i past hsuffix
    obtain ⟨trp, g, runp, rfl⟩ := hpast past hsuffix
    exact (Nat.le_add_right _ _).trans ((contended_exec runp).once i)
  · intro i past hsuffix
    obtain ⟨trp, g, runp, hlabels⟩ := hpast _ hsuffix
    cases runp with
    | start => cases hlabels
    | @next tr' f' _ e run' step =>
        obtain ⟨rfl, rfl⟩ := List.cons.inj hlabels
        cases step with
        | failure _ kept stale none others =>
            obtain ⟨recent, earlier, hsplit, hother, hsuccess⟩ :=
              (contended_exec run').loaded i true stale
            obtain ⟨j, hj⟩ := hsuccess rfl
            exact ⟨recent, earlier, hsplit, hother, j, hother _ hj, hj⟩
  · intro i past hsuffix
    obtain ⟨trp, g, runp, rfl⟩ := hpast past hsuffix
    have h := contended_exec runp
    calc bodies i (trp.map Prod.snd)
        ≤ (trp.map Prod.snd).countP LoopEvent.isSuccess :=
          (Nat.le_add_right _ _).trans (h.rivals i)
      _ ≤ (trp.map Prod.snd).countP LoopEvent.isBegin := h.successes_le
      _ ≤ (tr.map Prod.snd).countP LoopEvent.isBegin := hsuffix.countP_le

end Iocore.Foundation
