import Iocore.Defs
import Iocore.Foundation.Atomic
import Iocore.Foundation.System
import Iocore.Foundation.Threads

/-!
# The console log writer

`ConsoleLogWriter::Append` guards the write to `cerr` with a spin loop on
`isopen_`.  The local `expected` lives across the turns of that loop, and a
failed `compare_exchange_strong` overwrites it with the value it found.
-/

namespace Iocore.ConsoleLogWriter

open Foundation Foundation.System

inductive Pc where
  | idle
  | loop (data : String) (expected : Bool)
  | write (data : String)
  | close
  deriving DecidableEq, Repr

structure State (Tid : Type) where
  isopen : Bool
  cerr : List String
  pc : Tid → Pc

inductive Action (Tid : Type) where
  | append (i : Tid) (data : String)
  | next (i : Tid)
  deriving DecidableEq, Repr

def initial (Tid : Type) : State Tid := ⟨true, [], fun _ => .idle⟩

variable {Tid : Type} [DecidableEq Tid]

def State.goto (s : State Tid) (i : Tid) (pc : Pc) : State Tid :=
  { s with pc := Function.update s.pc i pc }

def advance (s : State Tid) (i : Tid) : Code (State Tid) :=
  match s.pc i with
  | .idle => .error .blocked
  | .loop data expected =>
      let exchange := compareExchangeStrong s.isopen expected false
      let s' := { s with isopen := exchange.cell }
      if exchange.success then .ok (s'.goto i (.write data))
      else .ok (s'.goto i (.loop data exchange.expected))
  | .write data =>
      .ok ({ s with cerr := s.cerr ++ [data ++ "\n"] }.goto i .close)
  | .close => .ok ({ s with isopen := true }.goto i .idle)

def exec (s : State Tid) : Action Tid → Code (State Tid)
  | .append i data =>
      match s.pc i with
      | .idle => .ok (s.goto i (.loop data true))
      | _ => .error .blocked
  | .next i => advance s i

def system (Tid : Type) [DecidableEq Tid] : System (State Tid) (Action Tid) :=
  .ofFunction (fun s => s = initial Tid) exec

/-! ## What a step does -/

def Pc.inRegion : Pc → Bool
  | .write _ | .close => true
  | .idle | .loop _ _ => false

inductive StepCases (s : State Tid) (i : Tid) (s' : State Tid) : Prop
  | outside (pc : Pc) (before : (s.pc i).inRegion = false)
      (after : pc.inRegion = false)
      (failed : ∀ data expected, s.pc i = .loop data expected →
        s.isopen ≠ expected)
      (flag : s'.isopen = s.isopen)
      (pcs : s'.pc = Function.update s.pc i pc)
  | enter (data : String) (expected : Bool)
      (before : s.pc i = .loop data expected) (swapped : s.isopen = expected)
      (flag : s'.isopen = false)
      (pcs : s'.pc = Function.update s.pc i (.write data))
  | inside (before : (s.pc i).inRegion = true) (flag : s'.isopen = s.isopen)
      (pcs : s'.pc = Function.update s.pc i .close)
  | leave (before : (s.pc i).inRegion = true) (flag : s'.isopen = true)
      (pcs : s'.pc = Function.update s.pc i .idle)

theorem advance_cases {s s' : State Tid} {i : Tid}
    (h : advance s i = .ok s') : StepCases s i s' := by
  unfold advance at h
  cases hpc : s.pc i with
  | idle => simp [hpc] at h
  | loop data expected =>
      by_cases hswap : s.isopen = expected
      · simp only [hpc, hswap, compareExchangeStrong_self] at h
        cases h
        exact .enter data expected hpc hswap rfl rfl
      · simp only [hpc, compareExchangeStrong_ne hswap] at h
        cases h
        refine .outside (.loop data s.isopen) (by simp [hpc, Pc.inRegion])
          rfl ?_ rfl rfl
        intro data' expected' hpc'
        rw [hpc] at hpc'
        cases hpc'
        exact hswap
  | write data =>
      simp only [hpc] at h
      cases h
      exact .inside (by simp [hpc, Pc.inRegion]) rfl rfl
  | close =>
      simp only [hpc] at h
      cases h
      exact .leave (by simp [hpc, Pc.inRegion]) rfl rfl

def Action.tid : Action Tid → Tid
  | .append i _ => i
  | .next i => i

theorem step_cases {s s' : State Tid} {a : Action Tid}
    (h : (system Tid).step s a s') : StepCases s a.tid s' := by
  cases a with
  | next i => exact advance_cases h
  | append i data =>
      change exec s (.append i data) = .ok s' at h
      cases hpc : s.pc i <;> simp only [exec, hpc] at h <;> cases h
      exact .outside (.loop data true) (by simp [Action.tid, hpc, Pc.inRegion])
        rfl (by simp [Action.tid, hpc]) rfl rfl

/-! ## Mutual exclusion -/

def MutualExclusion (s : State Tid) : Prop :=
  AtMostOne (fun pc : Pc => pc.inRegion = true) s.pc

/-- The last compare-exchange failed and left `false` in `expected`. -/
def Pc.retrying : Pc → Bool
  | .loop _ expected => !expected
  | _ => false

/--
The step is not a retry of the compare-exchange that still finds the writer
closed: such a retry succeeds while another thread is writing.
-/
def NoClosedRetry (s : State Tid) (a : Action Tid) : Prop :=
  s.isopen = false → (s.pc a.tid).retrying = false

instance (s : State Tid) (a : Action Tid) : Decidable (NoClosedRetry s a) :=
  inferInstanceAs (Decidable (s.isopen = false → _))

def Guarded (s : State Tid) : Prop :=
  ∃ owner, Token (fun pc : Pc => pc.inRegion = true) s.pc owner ∧
    (s.isopen = true ↔ owner = none)

omit [DecidableEq Tid] in
theorem Guarded.mutualExclusion {s : State Tid} (h : Guarded s) :
    MutualExclusion s := by
  obtain ⟨owner, token, -⟩ := h
  exact token.atMostOne

theorem guarded_inductive :
    ((system Tid).restrict NoClosedRetry).Inductive Guarded where
  init := by
    rintro s rfl
    exact ⟨none, Token.none_of fun _ => by simp [initial, Pc.inRegion],
      by simp [initial]⟩
  step := by
    rintro s a s' ⟨owner, token, hflag⟩ ⟨hok, hstep⟩
    cases step_cases hstep with
    | outside pc before after failed flag pcs =>
        refine ⟨owner, ?_, by rw [flag, hflag]⟩
        rw [pcs]
        exact token.keep (by simp [before, after])
    | enter data expected before swapped flag pcs =>
        have hopen : s.isopen = true := by
          cases expected with
          | true => exact swapped
          | false => simpa [before, Pc.retrying] using hok swapped
        obtain rfl := hflag.mp hopen
        refine ⟨some a.tid, ?_, by simp [flag]⟩
        rw [pcs]
        exact token.acquire rfl
    | inside before flag pcs =>
        refine ⟨owner, ?_, by rw [flag, hflag]⟩
        rw [pcs]
        exact token.keep (by rw [before]; rfl)
    | leave before flag pcs =>
        obtain rfl := token.owner_eq before
        refine ⟨none, ?_, by simp [flag]⟩
        rw [pcs]
        exact token.release (by simp [Pc.inRegion])

theorem Pc.eq_loop_of_retrying {pc : Pc} (h : pc.retrying = true) :
    ∃ data, pc = .loop data false := by
  cases pc with
  | loop data expected =>
      cases expected with
      | false => exact ⟨data, rfl⟩
      | true => cases h
  | idle | write | close => cases h

/-- A closed retry puts a second thread into the region. -/
theorem closedRetry_breaks {s s' : State Tid} {a : Action Tid}
    (hI : Guarded s) (hstep : (system Tid).step s a s')
    (hbad : ¬ NoClosedRetry s a) : ¬ MutualExclusion s' := by
  obtain ⟨owner, token, hflag⟩ := hI
  simp only [NoClosedRetry, Classical.not_imp, Bool.not_eq_false] at hbad
  obtain ⟨hclosed, hretry⟩ := hbad
  obtain ⟨data, hpc⟩ := Pc.eq_loop_of_retrying hretry
  obtain ⟨holder, rfl⟩ : ∃ holder, owner = some holder :=
    Option.ne_none_iff_exists'.mp fun e => by simp [hclosed, e] at hflag
  have hholder : (s.pc holder).inRegion = true := (token holder).mpr rfl
  have hne : holder ≠ a.tid := by
    rintro rfl
    simp [hpc, Pc.inRegion] at hholder
  intro hmutex
  cases step_cases hstep with
  | enter data' expected before swapped flag pcs =>
      refine hne (hmutex holder a.tid ?_ ?_)
      · rw [pcs, Function.update_of_ne hne]
        exact hholder
      · rw [pcs, Function.update_self]
        rfl
  | outside pc before after failed => exact absurd hclosed (failed data false hpc)
  | inside before => simp [hpc, Pc.inRegion] at before
  | leave before => simp [hpc, Pc.inRegion] at before

/--
A run of `Append` calls keeps at most one thread in the region throughout
precisely when no step of it is a closed retry.
-/
theorem mutualExclusion_iff_noClosedRetry {tr : History (State Tid) (Action Tid)}
    {s : State Tid} (run : (system Tid).Exec tr s) :
    (∀ y ∈ visited tr s, MutualExclusion y) ↔
      Meets NoClosedRetry tr :=
  run.safe_iff_meets guarded_inductive Guarded.mutualExclusion
    closedRetry_breaks

theorem patientRetries_mutualExclusion :
    ∃ tr s, (system (Fin 2)).Exec tr s ∧ s.cerr = ["a\n", "b\n"] ∧
      ∀ y ∈ visited tr s, MutualExclusion y := by
  obtain ⟨tr, s, run, htest⟩ : ∃ tr s, (system (Fin 2)).Exec tr s ∧
      decide (Meets NoClosedRetry tr ∧ s.cerr = ["a\n", "b\n"]) = true :=
    Exec.ofRecord exec (initial (Fin 2))
      [.append 0 "a", .append 1 "b", .next 0, .next 1, .next 0, .next 0,
        .next 1, .next 1, .next 1, .next 1]
      (fun r => decide (Meets NoClosedRetry r.1 ∧ r.2.cerr = ["a\n", "b\n"]))
      rfl (by decide)
  obtain ⟨hok, hcerr⟩ := of_decide_eq_true htest
  exact ⟨tr, s, run, hcerr, (mutualExclusion_iff_noClosedRetry run).mpr hok⟩

theorem not_mutualExclusion :
    ¬ ∀ s : State (Fin 2), (system (Fin 2)).Reachable s →
      MutualExclusion s := by
  intro h
  obtain ⟨tr, s, run, htest⟩ : ∃ tr s, (system (Fin 2)).Exec tr s ∧
      ((s.pc 0).inRegion && (s.pc 1).inRegion) = true :=
    Exec.ofRecord exec (initial (Fin 2))
      [.append 0 "a", .append 1 "b", .next 0, .next 1, .next 1]
      (fun r => (r.2.pc 0).inRegion && (r.2.pc 1).inRegion) rfl (by decide)
  obtain ⟨first, second⟩ := Bool.and_eq_true_iff.mp htest
  exact absurd (h s run.reachable 0 1 first second) (by decide)

end Iocore.ConsoleLogWriter
