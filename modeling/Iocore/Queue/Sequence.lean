import Iocore.Queue.Linearizability

/-!
# Queues over a sequence of their own

All that a queue asks of its container is that it serves as a sequence.  The
same programs over a plain list therefore do the same: step by step they return
or stop alike.  Where the container comes from, and what else changes between
two steps of the queue, does not matter.
-/

namespace Iocore

inductive Code.Agrees {α β : Type} (R : α → β → Prop) : Code α → Code β → Prop
  | ok {a : α} {b : β} (related : R a b) : Agrees R (.ok a) (.ok b)
  | error (e : Stop) : Agrees R (.error e) (.error e)

namespace Code.Agrees

variable {α β γ : Type} {R : α → β → Prop}

theorem bind (x : Code γ) {f : γ → Code α} {g : γ → Code β}
    (h : ∀ c, Agrees R (f c) (g c)) : Agrees R (x >>= f) (x >>= g) := by
  cases x with
  | ok c => exact h c
  | error e => exact .error e

theorem of_ok {x : Code α} {y : Code β} (h : Agrees R x y) {a : α}
    (hx : x = .ok a) : ∃ b, y = .ok b ∧ R a b := by
  cases h with
  | ok related =>
      cases hx
      exact ⟨_, rfl, related⟩
  | error e => cases hx

theorem of_ok_right {x : Code α} {y : Code β} (h : Agrees R x y) {b : β}
    (hy : y = .ok b) : ∃ a, x = .ok a ∧ R a b := by
  cases h with
  | ok related =>
      cases hy
      exact ⟨_, rfl, related⟩
  | error e => cases hy

end Code.Agrees

namespace Queue

open Foundation Foundation.System

variable {S T Tid : Type}

/-- What `SeqQueue.Lawful` asks, wherever the container comes from. -/
structure SeqQueue.Serves (q : SeqQueue S T) (Fits : S → T → Prop)
    (Content : S → List T → Prop) : Prop where
  isEmpty : ∀ {s xs}, Content s xs → q.isEmpty s = xs.isEmpty
  push : ∀ {s xs t}, Content s xs → Fits s t →
    ∃ s', q.push s t = .ok s' ∧ Content s' (xs ++ [t])
  pop : ∀ {s xs t}, Content s (t :: xs) →
    ∃ s', q.pop s = .ok (t, s') ∧ Content s' xs

theorem SeqQueue.Lawful.serves {q : SeqQueue S T} {Fits : S → T → Prop}
    {Content : S → List T → Prop} (h : q.Lawful Fits Content) :
    q.Serves Fits Content :=
  ⟨h.isEmpty, h.push, h.pop⟩

def Variant.sequence (v : Variant S T) : Variant (List T) T :=
  { v with container := stdQueue T }

def State.over (s : State Tid S T) (xs : List T) : State Tid (List T) T :=
  { s with container := xs }

@[simp] theorem State.over_lock (s : State Tid S T) (xs : List T) :
    (s.over xs).lock = s.lock := rfl

@[simp] theorem State.over_pc (s : State Tid S T) (xs : List T) :
    (s.over xs).pc = s.pc := rfl

@[simp] theorem State.over_container (s : State Tid S T) (xs : List T) :
    (s.over xs).container = xs := rfl

def Over (Content : S → List T → Prop) (s : State Tid S T)
    (s' : State Tid (List T) T) : Prop :=
  ∃ xs, Content s.container xs ∧ s' = s.over xs

variable [DecidableEq Tid] (build : Build) {v : Variant S T}
  {Fits : S → T → Prop} {Content : S → List T → Prop} {s : State Tid S T}
  {xs : List T}

theorem call_entry_sequence (v : Variant S T) (c : Call T) :
    c.entry v.sequence = c.entry v := by
  cases c with
  | pop kind => cases kind <;> rfl
  | _ => rfl

theorem over_goto (s : State Tid S T) (content : Content s.container xs)
    (i : Tid) (pc : Pc T) :
    Code.Agrees (Over Content) (.ok (s.goto i pc))
      (.ok ((s.over xs).goto i pc)) :=
  .ok ⟨xs, content, rfl⟩

theorem advance_agrees (serves : v.container.Serves Fits Content)
    (content : Content s.container xs) {i : Tid}
    (fits : ∀ t, s.pc i = .pushStore t → Fits s.container t) :
    Code.Agrees (Over Content) (advance build v s i)
      (advance build v.sequence (s.over xs) i) := by
  unfold advance
  simp only [Variant.sequence, State.over_pc, State.over_lock,
    State.over_container]
  cases hcode : code v.maxSpin (s.pc i) with
  | none | sleep woken expired unwinding | signal next => exact .error _
  | lock next | unlock next | wait next =>
      exact .bind _ fun lock => over_goto { s with lock := lock } content i _
  | lockFor ms next expired =>
      exact .bind _ fun result =>
        over_goto { s with lock := result.2 } content i _
  | yield next => exact over_goto s content i _
  | push t next =>
      obtain ⟨container, hpush, hafter⟩ :=
        serves.push content (fits t (code_push hcode))
      simp only [hpush, Code.ok_bind]
      exact over_goto { s with container := container } hafter i next
  | pop empty popped =>
      cases xs with
      | nil =>
          simp only [serves.isEmpty content, stdQueue, List.isEmpty_nil, if_true]
          exact over_goto s content i empty
      | cons t xs =>
          obtain ⟨container, hpop, hafter⟩ := serves.pop content
          simp only [serves.isEmpty content, stdQueue, List.isEmpty_cons, hpop,
            Code.ok_bind]
          exact over_goto { s with container := container } hafter i _
  | isEmpty next =>
      simp only [serves.isEmpty content, stdQueue]
      exact over_goto s content i _

theorem expire_agrees (content : Content s.container xs) (i : Tid) :
    Code.Agrees (Over Content) (expire build v s i)
      (expire build v.sequence (s.over xs) i) := by
  unfold expire
  simp only [Variant.sequence, State.over_pc, State.over_lock]
  cases hcode : code v.maxSpin (s.pc i) with
  | lockFor ms next expired =>
      exact .bind _ fun result =>
        over_goto { s with lock := result.2 } content i _
  | sleep woken expired unwinding =>
      cases expired with
      | none => exact .error _
      | some expired => exact over_goto s content i expired
  | _ => exact .error _

variable [Fintype Tid]

theorem exec_agrees (serves : v.container.Serves Fits Content)
    (content : Content s.container xs) {a : Action Tid T}
    (fits : PushContract Fits s a) :
    Code.Agrees (Over Content) (exec build v s a)
      (exec build v.sequence (s.over xs) a) := by
  have hcode (pc : Pc T) : code v.sequence.maxSpin pc = code v.maxSpin pc := rfl
  cases a with
  | call i c =>
      simp only [exec, State.over_pc, call_entry_sequence]
      split
      · exact over_goto s content i _
      · exact .error _
  | next i => exact advance_agrees build serves content fun t => fits i t rfl
  | expire i => exact expire_agrees build content i
  | wake i =>
      simp only [exec, State.over_pc, hcode]
      split
      · exact over_goto s content i _
      · exact .error _
  | signal i woken =>
      have hwakes : Wakes (s.over xs) woken ↔ Wakes s woken := Iff.rfl
      simp only [exec, State.over_pc, hcode, hwakes]
      split
      · split
        · exact over_goto { s with pc := wakeAll s.pc woken } content i _
        · exact .error _
      · exact .error _
  | cancel i =>
      exact .ok ⟨xs, content, rfl⟩
  | cancelAct i =>
      simp only [exec, State.over_pc, hcode]
      split
      · change Code.Agrees _ (if s.pending i = true then _ else _)
          (if s.pending i = true then _ else _)
        split
        · exact over_goto s content i _
        · exact .error _
      · exact .error _

end Queue

end Iocore
