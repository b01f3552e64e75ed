import Iocore.Defs
import Iocore.Foundation.System

/-!
# The bounded queue

`BoundedQ` takes a capacity and reserves the memory for it.  The capacity goes
nowhere else: `Push` appends to a vector, which grows when it has to.  Order
does not depend on it.
-/

namespace Iocore

structure BoundedQ (T : Type) where
  q : List T
  deriving DecidableEq, Repr

namespace BoundedQ

open Foundation Foundation.System

variable {T : Type}

def construct (T : Type) (_capacity : ℕ) : BoundedQ T := ⟨[]⟩

def push (queue : BoundedQ T) (t : T) : BoundedQ T := ⟨queue.q ++ [t]⟩

def size (queue : BoundedQ T) : ℕ := queue.q.length

def pop (queue : BoundedQ T) : Code (T × BoundedQ T) :=
  match queue.q with
  | [] => .error .undefinedBehaviour
  | t :: rest => .ok (t, ⟨rest⟩)

def clear (_ : BoundedQ T) : BoundedQ T := ⟨[]⟩

inductive Call (T : Type) where
  | push (t : T)
  | pop
  | clear
  deriving DecidableEq, Repr

/-- A queue, and what the calls of `Pop` have returned, oldest first. -/
structure Session (T : Type) where
  queue : BoundedQ T
  popped : List T
  deriving DecidableEq, Repr

def exec (s : Session T) : Call T → Code (Session T)
  | .push t => .ok { s with queue := s.queue.push t }
  | .pop => do
      let (t, queue) ← s.queue.pop
      return ⟨queue, s.popped ++ [t]⟩
  | .clear => .ok { s with queue := s.queue.clear }

def system (T : Type) (capacity : ℕ) : System (Session T) (Call T) :=
  .ofFunction (fun s => s = ⟨construct T capacity, []⟩) exec

/-! ## What a history says -/

def Call.isPop : Call T → Bool
  | .pop => true
  | _ => false

def pops (tr : History (Session T) (Call T)) : ℕ := tr.countP (·.2.isPop)

/--
The elements pushed and not cleared, in order: `Clear` leaves of those pushed
before as many as were popped before.
-/
def kept : History (Session T) (Call T) → List T
  | (_, .push t) :: tr => kept tr ++ [t]
  | (_, .pop) :: tr => kept tr
  | (_, .clear) :: tr => (kept tr).take (pops tr)
  | [] => []

def HasRoom (capacity : ℕ) (s : Session T) : Call T → Prop
  | .push _ => s.queue.size < capacity
  | _ => True

instance (capacity : ℕ) (s : Session T) (call : Call T) :
    Decidable (HasRoom capacity s call) := by
  cases call <;> unfold HasRoom <;> infer_instance

theorem pop_eq {s s' : Session T} (h : exec s .pop = .ok s') :
    ∃ t, s.queue.q = t :: s'.queue.q ∧ s'.popped = s.popped ++ [t] := by
  obtain ⟨⟨t, rest⟩, hpop, hrest⟩ := Code.bind_eq_ok.mp h
  cases hrest
  unfold pop at hpop
  split at hpop
  case h_1 => cases hpop
  case h_2 t' rest' hq =>
    cases hpop
    exact ⟨t, hq, rfl⟩

variable {capacity : ℕ} {tr : History (Session T) (Call T)} {s : Session T}

theorem popped_append_q (run : (system T capacity).Exec tr s) :
    s.popped ++ s.queue.q = kept tr ∧ s.popped.length = pops tr := by
  refine run.historyInvariant (fun tr s =>
    s.popped ++ s.queue.q = kept tr ∧ s.popped.length = pops tr) ?_ ?_
  · rintro s rfl
    exact ⟨rfl, rfl⟩
  · rintro tr s call s' run ⟨hkept, hpops⟩ hstep
    change exec s call = .ok s' at hstep
    cases call with
    | push t =>
        cases hstep
        constructor
        · change s.popped ++ (s.queue.q ++ [t]) = kept tr ++ [t]
          rw [← List.append_assoc, hkept]
        · rw [hpops]
          simp [pops, Call.isPop]
    | pop =>
        obtain ⟨t, hq, hpopped⟩ := pop_eq hstep
        constructor
        · rw [hpopped, kept, ← hkept, hq]
          simp
        · rw [hpopped, List.length_append, hpops]
          simp [pops, Call.isPop]
    | clear =>
        cases hstep
        constructor
        · rw [kept, ← hkept, ← hpops, List.take_left]
          exact List.append_nil _
        · rw [hpops]
          simp [pops, Call.isPop]

theorem size_le_step {s' : Session T} {call : Call T}
    (h : s.queue.size ≤ capacity) (hstep : exec s call = .ok s') :
    s'.queue.size ≤ capacity ↔ HasRoom capacity s call := by
  cases call with
  | push t =>
      cases hstep
      rw [size, push, List.length_append]
      exact Nat.succ_le_iff
  | pop =>
      obtain ⟨t, hq, -⟩ := pop_eq hstep
      rw [size, hq, List.length_cons] at h
      exact ⟨fun _ => trivial, fun _ => Nat.le_of_succ_le h⟩
  | clear =>
      cases hstep
      simp [size, clear, HasRoom]

/-- What was popped, in order, and what is queued is what was pushed and kept. -/
theorem boundedQ_bounded_iff (run : (system T capacity).Exec tr s) :
    ((∀ y ∈ visited tr s, y.queue.size ≤ capacity) ↔
      Meets (HasRoom capacity) tr) ∧
    s.popped ++ s.queue.q = kept tr := by
  refine ⟨?_, (popped_append_q run).1⟩
  refine run.safe_iff_meets_of_step_iff (J := fun _ => True) ?_ ?_ ?_
  · exact ⟨fun _ => trivial, fun _ _ => trivial⟩
  · rintro s rfl
    exact Nat.zero_le _
  · intro s call s' _ h hstep
    exact size_le_step h hstep

theorem boundedQ_bounded_two :
    ∃ tr s, (system ℕ 2).Exec tr s ∧
      (Meets (HasRoom 2) tr ∧ s.popped = [1, 2] ∧ s.queue.q = [5] ∧
        kept tr = [1, 2, 5]) ∧
      (((∀ y ∈ visited tr s, y.queue.size ≤ 2) ↔ Meets (HasRoom 2) tr) ∧
        s.popped ++ s.queue.q = kept tr) := by
  obtain ⟨tr, s, run, htest⟩ : ∃ tr s, (system ℕ 2).Exec tr s ∧
      decide (Meets (HasRoom 2) tr ∧ s.popped = [1, 2] ∧ s.queue.q = [5] ∧
        kept tr = [1, 2, 5]) = true :=
    Exec.ofRecord exec ⟨construct ℕ 2, []⟩
      [.push 1, .push 2, .pop, .pop, .push 3, .push 4, .clear, .push 5]
      (fun r => decide (Meets (HasRoom 2) r.1 ∧ r.2.popped = [1, 2] ∧
        r.2.queue.q = [5] ∧ kept r.1 = [1, 2, 5])) rfl (by decide)
  exact ⟨tr, s, run, of_decide_eq_true htest, boundedQ_bounded_iff run⟩

theorem boundedQ_exceeded :
    ∃ tr s, (system ℕ 1).Exec tr s ∧ s.queue.size = 2 := by
  obtain ⟨tr, s, run, htest⟩ : ∃ tr s,
      (system ℕ 1).Exec tr s ∧ decide (s.queue.size = 2) = true :=
    Exec.ofRecord exec ⟨construct ℕ 1, []⟩ [.push 1, .push 2]
      (fun r => decide (r.2.queue.size = 2)) rfl (by decide)
  exact ⟨tr, s, run, of_decide_eq_true htest⟩

end BoundedQ

end Iocore
