import Iocore.Queue.Locking

/-!
# Cancelled consumers

A thread whose cancellation takes effect while it waits for the condition gets
the lock back and ends with it.  No run in which the waits are spared from
cancellation leaves the lock with a thread that has ended.  Once it is left
there, it stays there, and every other thread that needs it waits for ever.
-/

namespace Iocore.Queue

open Foundation Foundation.System Pthread

variable {S T Tid : Type}

def Wedged (s : State Tid S T) : Prop :=
  ∃ i, s.pc i = .terminated ∧ s.lock.hold.owner = some i

/-- No cancellation takes effect on a thread that waits for the condition. -/
def SparesWaits (s : State Tid S T) (a : Action Tid T) : Prop :=
  ∀ i, a = .cancelAct i → (s.pc i).asleep = false

def Pc.ending : Pc T → Bool
  | .unwind | .terminated => true
  | _ => false

theorem entry_ending {v : Variant S T} {c : Call T} {pc : Pc T}
    (h : c.entry v = some pc) : pc.ending = false := by
  cases entry_entered h <;> rfl

theorem leads_ending {maxSpin : Nat} {pc next : Pc T}
    (h : (code maxSpin pc).Leads next) : next.ending = pc.ending := by
  cases leads_cases h <;> rfl

variable [DecidableEq Tid] [Fintype Tid] (build : Build) (v : Variant S T)

structure Unwedged (s : State Tid S T) : Prop where
  locked : Locked s
  running : ∀ i, (s.pc i).ending = false

theorem unwedged_inductive :
    ((system build v Tid).restrict SparesWaits).Inductive Unwedged where
  init := by
    rintro s rfl
    exact ⟨(locked_inductive build).init rfl, fun _ => rfl⟩
  step := by
    rintro s a s' h ⟨hspares, hstep⟩
    have hcases := step_cases build h.locked hstep
    refine ⟨hcases.locked h.locked, fun i => ?_⟩
    rcases (hcases.flow i).leads with stays | ⟨c, result, -, enters⟩ | leads |
      ⟨label, asleep, -⟩
    · rw [stays, h.running i]
    · exact entry_ending enters
    · rw [leads_ending leads, h.running i]
    · simp [hspares i label] at asleep

/--
In every run of a queue in which no cancellation takes effect in a wait for
the condition, no state has the lock owned by a thread that has ended.
-/
theorem not_wedged_of_sparesWaits {tr : History (State Tid S T) (Action Tid T)}
    {s : State Tid S T} (run : (system build v Tid).Exec tr s)
    (spared : Meets SparesWaits tr) : ∀ y ∈ visited tr s, ¬ Wedged y := by
  rintro y hy ⟨i, hended, -⟩
  have h := (unwedged_inductive build v).visited (run.restrict spared) y hy
  have hrunning := h.running i
  rw [hended] at hrunning
  cases hrunning

theorem woken_consumer_not_wedged :
    ∃ tr s, (system defaultBuild (queue Nat) (Fin 2)).Exec tr s ∧
      (s.pc 0 = .idle (.popped .untimed (some 7)) ∧ s.pending 0 = true ∧
        s.pending 1 = true) ∧
      ∀ y ∈ visited tr s, ¬ Wedged y := by
  obtain ⟨tr, s, run, htest⟩ : ∃ tr s,
      (system defaultBuild (queue Nat) (Fin 2)).Exec tr s ∧
        decide ((∀ p ∈ tr, ∀ i, p.2 ≠ .cancelAct i) ∧
          s.pc 0 = .idle (.popped .untimed (some 7)) ∧ s.pending 0 = true ∧
            s.pending 1 = true) = true :=
    Exec.ofRecord (exec defaultBuild (queue Nat))
      (initial defaultBuild (queue Nat) (Fin 2))
      [.call 0 (.pop .untimed), .next 0, .next 0, .next 0,
        .call 1 (.push 7), .cancel 1, .next 1, .next 1, .next 1,
        .signal 1 [0], .cancel 0, .next 0, .next 0, .next 0]
      (fun r => decide ((∀ p ∈ r.1, ∀ i, p.2 ≠ .cancelAct i) ∧
        r.2.pc 0 = .idle (.popped .untimed (some 7)) ∧ r.2.pending 0 = true ∧
          r.2.pending 1 = true)) rfl (by decide)
  obtain ⟨hspares, hend⟩ := of_decide_eq_true htest
  exact ⟨tr, s, run, hend, not_wedged_of_sparesWaits _ _ run
    fun p hp i hlabel => absurd hlabel (hspares p hp i)⟩

theorem not_never_wedged :
    ¬ ∀ s, (system defaultBuild (queue Nat) (Fin 2)).Reachable s →
      ¬ Wedged s := by
  intro h
  obtain ⟨tr, s, run, htest⟩ : ∃ tr s,
      (system defaultBuild (queue Nat) (Fin 2)).Exec tr s ∧
        decide (s.pc 0 = .terminated ∧ s.lock.hold.owner = some 0) = true :=
    Exec.ofRecord (exec defaultBuild (queue Nat))
      (initial defaultBuild (queue Nat) (Fin 2))
      [.call 0 (.pop .untimed), .next 0, .next 0, .next 0, .cancel 0,
        .cancelAct 0, .next 0]
      (fun r => decide (r.2.pc 0 = .terminated ∧
        r.2.lock.hold.owner = some 0)) rfl (by decide)
  exact h s run.reachable ⟨0, of_decide_eq_true htest⟩

/-! ## What follows for the other threads -/

variable {build v}

theorem wedged_stays {s s' : State Tid S T} {a : Action Tid T}
    (run : (system build v Tid).Reachable s)
    (step : (system build v Tid).step s a s') (h : Wedged s) : Wedged s' := by
  obtain ⟨i, hended, -⟩ := h
  have hlocked := (locked_inductive build).reachable run
  have hcases := step_cases build hlocked step
  have hends : s'.pc i = .terminated := by
    rcases (hcases.flow i).leads with stays | ⟨c, result, before, -⟩ | leads |
      ⟨-, asleep, -⟩
    · rw [stays, hended]
    · simp [hended] at before
    · simp [hended, code, Instr.Leads] at leads
    · simp [hended, Pc.asleep] at asleep
  refine ⟨i, hends, (hcases.locked hlocked).owner_iff.mpr ?_⟩
  rw [hends]
  rfl

theorem wedged_blocks {s : State Tid S T} (run : (system build v Tid).Reachable s)
    (h : Wedged s) {j : Tid} {next : Pc T}
    (needs : code v.maxSpin (s.pc j) = .lock next) :
    exec build v s (.next j) = .error .blocked := by
  obtain ⟨i, hended, howner⟩ := h
  obtain ⟨owner, token, hold⟩ := (locked_inductive build).reachable run
  have hfree : (s.pc j).holding = false := (LockTyped.of_code needs).1
  have hother : owner ≠ some j := fun e => by
    simp [(token j).mpr e] at hfree
  have hheld : owner ≠ none := fun e => by
    simp [hold, e, PThreadMutex.single, Hold.owner] at howner
  simp only [exec, advance, needs, PThreadMutex.lock_single build hold hother,
    if_neg hheld]
  rfl

end Iocore.Queue
