import Iocore.Logger.Console
import Iocore.Logger.Message

/-!
# What many threads write on the console

Threads log messages, and the console writer sends each text to `cerr`
character by character and ends it with a newline.  What stands there are whole
lines, as long as no thread retries the compare-exchange while the writer is
closed.
-/

namespace Iocore.ConsoleLogWriter

open Foundation Foundation.System Logger

namespace Stream

/-- `write` counts the characters of the text that are on `cerr`. -/
inductive Pc where
  | idle
  | loop (data : Text) (expected : Bool)
  | write (data : Text) (written : Nat)
  | close
  deriving DecidableEq, Repr

structure State (Tid : Type) where
  isopen : Bool
  cerr : Text
  pc : Tid → Pc

inductive Action (Tid : Type) where
  | log (i : Tid) (e : Statement)
  | next (i : Tid)
  deriving DecidableEq, Repr

def initial (Tid : Type) : State Tid := ⟨true, [], fun _ => .idle⟩

variable {Tid : Type} [DecidableEq Tid]

def State.goto (s : State Tid) (i : Tid) (pc : Pc) : State Tid :=
  { s with pc := Function.update s.pc i pc }

def advance (s : State Tid) (i : Tid) : Code (State Tid) :=
  match s.pc i with
  | .idle => .error .blocked
  | .loop data expected =>
      let exchange := compareExchangeStrong s.isopen expected false
      let s' := { s with isopen := exchange.cell }
      if exchange.success then .ok (s'.goto i (.write data 0))
      else .ok (s'.goto i (.loop data exchange.expected))
  | .write data written =>
      match data[written]? with
      | some c =>
          .ok ({ s with cerr := s.cerr ++ [c] }.goto i (.write data (written + 1)))
      | none => .ok ({ s with cerr := s.cerr ++ ['\n'] }.goto i .close)
  | .close => .ok ({ s with isopen := true }.goto i .idle)

def exec (file : Option Text) (s : State Tid) : Action Tid → Code (State Tid)
  | .log i e =>
      match s.pc i with
      | .idle => do
          let logger ← e.message.destroy e.timestamp
            (Logger.construct file).attachWriter
          match logger.writer with
          | some ((data, _) :: _) => return s.goto i (.loop data true)
          | _ => return s
      | _ => .error .blocked
  | .next i => advance s i

def system (file : Option Text) (Tid : Type) [DecidableEq Tid] :
    System (State Tid) (Action Tid) :=
  .ofFunction (fun s => s = initial Tid) (exec file)

/-! ## What a step does -/

inductive StepCases (file : Option Text) (s : State Tid) :
    Action Tid → State Tid → Prop
  | dropped (i : Tid) (e : Statement) (before : s.pc i = .idle)
      (undelivered : ¬ e.Delivered file) : StepCases file s (.log i e) s
  | begin (i : Tid) (e : Statement) (before : s.pc i = .idle)
      (delivered : e.Delivered file) :
      StepCases file s (.log i e) (s.goto i (.loop e.text true))
  | enter (i : Tid) (data : Text) (expected : Bool)
      (before : s.pc i = .loop data expected) (swapped : s.isopen = expected) :
      StepCases file s (.next i)
        ({ s with isopen := false }.goto i (.write data 0))
  | retry (i : Tid) (data : Text) (expected : Bool)
      (before : s.pc i = .loop data expected) (failed : s.isopen ≠ expected) :
      StepCases file s (.next i) (s.goto i (.loop data s.isopen))
  | char (i : Tid) (data : Text) (written : Nat) (c : Char)
      (before : s.pc i = .write data written) (at_ : data[written]? = some c) :
      StepCases file s (.next i)
        ({ s with cerr := s.cerr ++ [c] }.goto i (.write data (written + 1)))
  | endl (i : Tid) (data : Text) (written : Nat)
      (before : s.pc i = .write data written) (at_ : data[written]? = none) :
      StepCases file s (.next i)
        ({ s with cerr := s.cerr ++ ['\n'] }.goto i .close)
  | close (i : Tid) (before : s.pc i = .close) :
      StepCases file s (.next i) ({ s with isopen := true }.goto i .idle)

theorem step_cases {file : Option Text} {s s' : State Tid} {a : Action Tid}
    (h : (system file Tid).step s a s') : StepCases file s a s' := by
  change exec file s a = .ok s' at h
  cases a with
  | log i e =>
      cases hpc : s.pc i with
      | idle =>
          simp only [exec, hpc] at h
          rw [destroy_eq e rfl rfl, Code.ok_bind] at h
          by_cases hdelivered : e.Delivered file
          · rw [if_pos hdelivered] at h
            cases h
            exact .begin i e hpc hdelivered
          · rw [if_neg hdelivered] at h
            cases h
            exact .dropped i e hpc hdelivered
      | _ => simp [exec, hpc] at h
  | next i =>
      change advance s i = .ok s' at h
      unfold advance at h
      cases hpc : s.pc i with
      | idle => simp [hpc] at h
      | loop data expected =>
          by_cases hswap : s.isopen = expected
          · simp only [hpc, hswap, compareExchangeStrong_self] at h
            cases h
            exact .enter i data expected hpc hswap
          · simp only [hpc, compareExchangeStrong_ne hswap] at h
            cases h
            exact .retry i data expected hpc hswap
      | write data written =>
          simp only [hpc] at h
          cases hat : data[written]? with
          | some c =>
              rw [hat] at h
              cases h
              exact .char i data written c hpc hat
          | none =>
              rw [hat] at h
              cases h
              exact .endl i data written hpc hat
      | close =>
          simp only [hpc] at h
          cases h
          exact .close i hpc

/-! ## The writer that writes a line at a time -/

def Pc.whole : Pc → ConsoleLogWriter.Pc
  | .idle => .idle
  | .loop data expected => .loop (String.ofList data) expected
  | .write data _ => .write (String.ofList data)
  | .close => .close

def State.whole (s : State Tid) (cerr : List String) :
    ConsoleLogWriter.State Tid :=
  ⟨s.isopen, cerr, fun i => (s.pc i).whole⟩

/-- The line that a step completes, with the thread that wrote it. -/
def completes (s : State Tid) : Action Tid → Option (Tid × Text)
  | .next i =>
      match s.pc i with
      | .write data written =>
          if data[written]? = none then some (i, data) else none
      | _ => none
  | .log _ _ => none

def wholeStep (file : Option Text) (s : State Tid) :
    Action Tid → Option (ConsoleLogWriter.Action Tid)
  | .log i e =>
      if e.Delivered file then some (.append i (String.ofList e.text)) else none
  | .next i =>
      match s.pc i with
      | .write data written =>
          if data[written]? = none then some (.next i) else none
      | _ => some (.next i)

/-- A retry that finds the writer closed, as `NoClosedRetry` rules it out. -/
def Patient (s : State Tid) (a : Action Tid) : Prop :=
  ∀ i data, a = .next i → s.isopen = false → s.pc i ≠ .loop data false

def completed (tr : History (State Tid) (Action Tid)) : List (Tid × Text) :=
  observed completes tr

theorem whole_goto (s : State Tid) (cerr : List String) (i : Tid) (pc : Pc) :
    (s.goto i pc).whole cerr = (s.whole cerr).goto i pc.whole := by
  simp only [State.goto, State.whole, ConsoleLogWriter.State.goto]
  congr 1
  exact funext (Function.apply_update (fun _ => Pc.whole) s.pc i pc)

omit [DecidableEq Tid] in
theorem noClosedRetry_next {s : State Tid} {i : Tid}
    (patient : Patient s (.next i)) (cerr : List String) :
    NoClosedRetry (s.whole cerr) (.next i) := by
  intro hclosed
  simp only [ConsoleLogWriter.Action.tid, State.whole]
  cases hpc : s.pc i with
  | loop data expected =>
      cases expected with
      | true => rfl
      | false => exact absurd hpc (patient i data rfl hclosed)
  | _ => rfl

def line (p : Tid × Text) : String := String.ofList p.2 ++ "\n"

theorem whole_step {file : Option Text} {s s' : State Tid} {a : Action Tid}
    (patient : Patient s a) (hstep : (system file Tid).step s a s')
    (cerr : List String) :
    match wholeStep file s a with
    | none => completes s a = none ∧ s'.whole cerr = s.whole cerr
    | some b => NoClosedRetry (s.whole cerr) b ∧
        (ConsoleLogWriter.system Tid).step (s.whole cerr) b
          (s'.whole (cerr ++ (completes s a).toList.map line)) := by
  cases step_cases hstep with
  | dropped i e before undelivered =>
      simp only [wholeStep, if_neg undelivered]
      exact ⟨rfl, trivial⟩
  | begin i e before delivered =>
      simp only [wholeStep, if_pos delivered, completes, Option.toList_none,
        List.map_nil, List.append_nil, whole_goto]
      constructor
      · simp [NoClosedRetry, ConsoleLogWriter.Action.tid, State.whole, before,
          Pc.whole, Pc.retrying]
      · change ConsoleLogWriter.exec _ _ = _
        simp [ConsoleLogWriter.exec, State.whole, before, Pc.whole]
  | enter i data expected before swapped =>
      simp only [wholeStep, completes, before, Option.toList_none, List.map_nil,
        List.append_nil, whole_goto]
      refine ⟨noClosedRetry_next patient cerr, ?_⟩
      change ConsoleLogWriter.advance _ _ = _
      simp [ConsoleLogWriter.advance, State.whole, before, Pc.whole, swapped]
  | retry i data expected before failed =>
      simp only [wholeStep, completes, before, Option.toList_none, List.map_nil,
        List.append_nil, whole_goto]
      refine ⟨noClosedRetry_next patient cerr, ?_⟩
      change ConsoleLogWriter.advance _ _ = _
      simp [ConsoleLogWriter.advance, State.whole, before, Pc.whole,
        compareExchangeStrong_ne failed]
  | char i data written c before at_ =>
      simp only [wholeStep, completes, before, at_, reduceCtorEq, if_false]
      have hsame : (s.whole cerr).pc i = .write (String.ofList data) := by
        simp [State.whole, before, Pc.whole]
      rw [whole_goto, ConsoleLogWriter.State.goto, Pc.whole, ← hsame]
      simp [State.whole]
  | endl i data written before at_ =>
      simp only [wholeStep, completes, before, at_, if_true, whole_goto]
      refine ⟨noClosedRetry_next patient cerr, ?_⟩
      change ConsoleLogWriter.advance _ _ = _
      simp [ConsoleLogWriter.advance, State.whole, before, Pc.whole, line]
  | close i before =>
      simp only [wholeStep, completes, before, Option.toList_none, List.map_nil,
        List.append_nil, whole_goto]
      refine ⟨noClosedRetry_next patient cerr, ?_⟩
      change ConsoleLogWriter.advance _ _ = _
      simp [ConsoleLogWriter.advance, State.whole, before, Pc.whole]

def patient (s : State Tid) : Action Tid → Bool
  | .next i =>
      match s.pc i with
      | .loop _ false => s.isopen
      | _ => true
  | .log _ _ => true

omit [DecidableEq Tid] in
theorem patient_of_test {s : State Tid} {a : Action Tid}
    (h : patient s a = true) : Patient s a := by
  rintro i data rfl hclosed hpc
  simp [patient, hpc, hclosed] at h

omit [DecidableEq Tid] in
theorem completed_cons (s : State Tid) (a : Action Tid)
    (tr : History (State Tid) (Action Tid)) :
    completed ((s, a) :: tr) = (completes s a).toList ++ completed tr :=
  observed_cons ..

theorem whole_exec {file : Option Text}
    {tr : History (State Tid) (Action Tid)} {s : State Tid}
    (run : (system file Tid).Exec tr s) (patient : Meets Patient tr) :
    ∃ tr', ((ConsoleLogWriter.system Tid).restrict NoClosedRetry).Exec tr'
        (s.whole ((completed tr).reverse.map line)) ∧
      tr'.map Prod.snd = observed (wholeStep file) tr := by
  induction run with
  | start init =>
      obtain rfl := init
      exact ⟨[], .start rfl, rfl⟩
  | @next tr s s' a run step ih =>
      obtain ⟨hpatient, hrest⟩ := meets_cons.mp patient
      obtain ⟨tr', hrun, hlabels⟩ := ih hrest
      have hwhole := whole_step hpatient step ((completed tr).reverse.map line)
      rw [completed_cons, observed_cons]
      cases hb : wholeStep file s a with
      | none =>
          rw [hb] at hwhole
          rw [hwhole.1]
          exact ⟨tr', by rw [← hwhole.2] at hrun; exact hrun, hlabels⟩
      | some b =>
          rw [hb] at hwhole
          refine ⟨(_, b) :: tr', hrun.next ?_, by simp [hlabels]⟩
          have hreverse : ((completes s a).toList ++ completed tr).reverse.map
              line = (completed tr).reverse.map line ++
                (completes s a).toList.map line := by
            cases completes s a <;> simp
          rw [hreverse]
          exact hwhole

/-! ## Whole lines -/

def Pc.partialLine : Pc → Text
  | .write data written => data.take written
  | _ => []

def Pc.inRegion : Pc → Bool
  | .write _ _ | .close => true
  | _ => false

def text (done : List (Tid × Text)) : Text :=
  done.reverse.flatMap fun p => p.2 ++ ['\n']

/-- On `cerr` stand the completed lines, and what the writing call has of its. -/
def Readable (tr : History (State Tid) (Action Tid)) (s : State Tid) : Prop :=
  ∃ rest, s.cerr = text (completed tr) ++ rest ∧
    (∀ i, (s.pc i).inRegion = true → rest = (s.pc i).partialLine) ∧
    ((∀ i, (s.pc i).inRegion = false) → rest = [])

def Exclusive (s : State Tid) : Prop :=
  AtMostOne (fun pc : Pc => pc.inRegion = true) s.pc

theorem Pc.whole_inRegion (pc : Pc) : pc.whole.inRegion = pc.inRegion := by
  cases pc <;> rfl

@[simp] theorem State.goto_cerr (s : State Tid) (i : Tid) (pc : Pc) :
    (s.goto i pc).cerr = s.cerr := rfl

theorem exclusive_exec {file : Option Text}
    {tr : History (State Tid) (Action Tid)} {s : State Tid}
    (run : (system file Tid).Exec tr s) (patient : Meets Patient tr) :
    Exclusive s := by
  obtain ⟨tr', hrun, -⟩ := whole_exec run patient
  intro i j hi hj
  refine (guarded_inductive.exec hrun).mutualExclusion i j ?_ ?_
  · simpa [State.whole, Pc.whole_inRegion] using hi
  · simpa [State.whole, Pc.whole_inRegion] using hj

theorem Readable.step {file : Option Text}
    {tr : History (State Tid) (Action Tid)} {s s' : State Tid}
    {a : Action Tid} (h : Readable tr s) (before : Exclusive s)
    (after : Exclusive s') (hstep : (system file Tid).step s a s') :
    Readable ((s, a) :: tr) s' := by
  obtain ⟨rest, hcerr, hwriting, hnobody⟩ := h
  -- A step outside of the region.
  have houtside : ∀ {i pc}, completes s a = none → s' = s.goto i pc →
      (s.pc i).inRegion = false → pc.inRegion = false →
      Readable ((s, a) :: tr) s' := by
    rintro i pc hnone rfl hout hpc
    have hregion : ∀ j, ((s.goto i pc).pc j).inRegion = (s.pc j).inRegion :=
      forall_update (fun j (pc : Pc) => pc.inRegion = (s.pc j).inRegion)
        (hpc.trans hout.symm) fun _ _ => rfl
    refine ⟨rest, by rw [completed_cons, hnone]; exact hcerr, fun j hj => ?_,
      fun hnone => hnobody fun j => (hregion j).symm.trans (hnone j)⟩
    have hne : j ≠ i := by
      rintro rfl
      simp [hregion, hout] at hj
    rw [hwriting j (by rwa [hregion] at hj)]
    simp [State.goto, Function.update_of_ne hne]
  -- A step after which its thread is in the region.
  have hinside : ∀ {i pc}, s'.pc = Function.update s.pc i pc →
      pc.inRegion = true →
      s'.cerr = text (completed ((s, a) :: tr)) ++ pc.partialLine →
      Readable ((s, a) :: tr) s' := by
    intro i pc hpcs hpc hcerr'
    have hmine : s'.pc i = pc := by rw [hpcs, Function.update_self]
    have hregion : (s'.pc i).inRegion = true := by rw [hmine, hpc]
    refine ⟨pc.partialLine, hcerr', fun j hj => ?_, fun hnone => ?_⟩
    · rw [after j i hj hregion, hmine]
    · rw [hnone i] at hregion
      cases hregion
  cases step_cases hstep with
  | dropped i e idle undelivered => exact ⟨rest, hcerr, hwriting, hnobody⟩
  | begin i e idle delivered =>
      exact houtside rfl rfl (by rw [idle]; rfl) rfl
  | retry i data expected looping failed =>
      exact houtside (by simp [completes, looping]) rfl (by rw [looping]; rfl) rfl
  | enter i data expected looping swapped =>
      have hrest : rest = [] := by
        refine hnobody fun j => ?_
        by_contra hj
        rw [Bool.not_eq_false] at hj
        have hne : j ≠ i := by
          rintro rfl
          simp [looping, Pc.inRegion] at hj
        refine hne (after j i ?_ ?_)
        · simpa [State.goto, Function.update_of_ne hne] using hj
        · simp [State.goto, Pc.inRegion]
      refine hinside rfl rfl ?_
      rw [completed_cons]
      simpa [State.goto, completes, looping, Pc.partialLine, hrest] using hcerr
  | char i data written c writing at_ =>
      have hrest : rest = data.take written := by
        rw [hwriting i (by rw [writing]; rfl), writing]
        rfl
      refine hinside rfl rfl ?_
      rw [completed_cons]
      simp [State.goto, completes, writing, at_, Pc.partialLine, hcerr, hrest,
        List.take_add_one]
  | endl i data written writing at_ =>
      have hrest : rest = data := by
        rw [hwriting i (by rw [writing]; rfl), writing]
        exact List.take_of_length_le (List.getElem?_eq_none_iff.mp at_)
      refine hinside rfl rfl ?_
      rw [completed_cons]
      simp [State.goto, completes, writing, at_, Pc.partialLine, hcerr, hrest,
        text]
  | close i closing =>
      have hrest : rest = [] := by
        rw [hwriting i (by rw [closing]; rfl), closing]
        rfl
      have hnone : ∀ j, (Function.update s.pc i .idle j).inRegion = false := by
        refine forall_update (fun _ (pc : Pc) => pc.inRegion = false) rfl fun j hj => ?_
        by_contra hwrites
        rw [Bool.not_eq_false] at hwrites
        exact hj (before j i hwrites (by rw [closing]; rfl))
      refine ⟨[], ?_, fun j hj => ?_, fun _ => rfl⟩
      · rw [completed_cons]
        simpa [State.goto, completes, closing, hrest] using hcerr
      · have hj' := hnone j
        simp only [State.goto] at hj
        rw [hj] at hj'
        cases hj'

theorem readable_exec {file : Option Text}
    {tr : History (State Tid) (Action Tid)} {s : State Tid}
    (run : (system file Tid).Exec tr s) (patient : Meets Patient tr) :
    Readable tr s := by
  induction run with
  | start init =>
      obtain rfl := init
      exact ⟨[], rfl, nofun, fun _ => rfl⟩
  | next run step ih =>
      have hrest := (meets_cons.mp patient).2
      exact (ih hrest).step (exclusive_exec run hrest)
        (exclusive_exec (run.next step) patient) step

/-! ## Which lines -/

def logs (file : Option Text) (i : Tid) (_ : State Tid) : Action Tid → Option Text
  | .log j e => if j = i ∧ e.Delivered file then some e.text else none
  | .next _ => none

def logged (file : Option Text) (i : Tid)
    (tr : History (State Tid) (Action Tid)) : List Text :=
  observed (logs file i) tr

def linesBy (i : Tid) (done : List (Tid × Text)) : List Text :=
  done.filterMap fun p => if p.1 = i then some p.2 else none

def Pc.pending : Pc → Option Text
  | .loop data _ | .write data _ => some data
  | _ => none

def Action.tid : Action Tid → Tid
  | .log i _ | .next i => i

theorem pc_of_ne {file : Option Text} {s s' : State Tid} {a : Action Tid}
    (h : (system file Tid).step s a s') {i : Tid} (hi : i ≠ a.tid) :
    s'.pc i = s.pc i := by
  cases step_cases h with
  | dropped => rfl
  | _ => exact Function.update_of_ne hi _ _

theorem logs_of_ne (file : Option Text) {s : State Tid} {a : Action Tid}
    {i : Tid} (hi : i ≠ a.tid) : logs file i s a = none := by
  cases a with
  | log j e => simp [logs, show ¬ j = i from Ne.symm hi]
  | next j => rfl

theorem linesBy_of_ne {s : State Tid} {a : Action Tid} {i : Tid}
    (hi : i ≠ a.tid) : linesBy i (completes s a).toList = [] := by
  cases a with
  | log j e => rfl
  | next j =>
      have hj : ¬ j = i := Ne.symm hi
      simp only [completes]
      split
      · split <;> simp [linesBy, hj]
      · rfl

theorem logged_step {file : Option Text} {s s' : State Tid} {a : Action Tid}
    (h : (system file Tid).step s a s') (i : Tid) :
    (logs file i s a).toList ++ (s.pc i).pending.toList =
      (s'.pc i).pending.toList ++ linesBy i (completes s a).toList := by
  by_cases hi : i = a.tid
  · subst hi
    have hmine : ∀ (s₁ : State Tid) (j : Tid) (pc : Pc),
        (s₁.goto j pc).pc j = pc := fun s₁ j pc => Function.update_self ..
    cases step_cases h with
    | dropped j e idle undelivered =>
        simp [logs, completes, linesBy, undelivered]
    | begin j e idle delivered =>
        simp [Action.tid, logs, completes, linesBy, delivered, hmine, idle,
          Pc.pending]
    | enter j data expected looping swapped =>
        simp [Action.tid, logs, completes, linesBy, hmine, looping, Pc.pending]
    | retry j data expected looping failed =>
        simp [Action.tid, logs, completes, linesBy, hmine, looping, Pc.pending]
    | char j data written c writing at_ =>
        simp [Action.tid, logs, completes, linesBy, hmine, writing, at_,
          Pc.pending]
    | endl j data written writing at_ =>
        simp [Action.tid, logs, completes, linesBy, hmine, writing, at_,
          Pc.pending]
    | close j closing =>
        simp [Action.tid, logs, completes, linesBy, hmine, closing, Pc.pending]
  · rw [pc_of_ne h hi, logs_of_ne file hi, linesBy_of_ne hi, List.append_nil]
    rfl

theorem logged_exec {file : Option Text}
    {tr : History (State Tid) (Action Tid)} {s : State Tid}
    (run : (system file Tid).Exec tr s) (i : Tid) :
    logged file i tr = (s.pc i).pending.toList ++ linesBy i (completed tr) := by
  induction run with
  | start init =>
      obtain rfl := init
      rfl
  | next run step ih =>
      rw [logged, observed_cons, ← logged, ih, ← List.append_assoc,
        logged_step step i, List.append_assoc, completed_cons, linesBy, linesBy,
        linesBy, List.filterMap_append]

theorem mem_logged {file : Option Text} {i : Tid}
    {tr : History (State Tid) (Action Tid)} {t : Text}
    (h : t ∈ logged file i tr) :
    ∃ p ∈ tr, ∃ e, p.2 = .log i e ∧ e.text = t := by
  obtain ⟨p, hp, hlogs⟩ := List.mem_filterMap.mp h
  obtain ⟨s, a⟩ := p
  cases a with
  | log j e =>
      simp only [logs] at hlogs
      split at hlogs
      · rename_i hmine
        exact ⟨_, hp, e, by rw [hmine.1], Option.some.inj hlogs⟩
      · cases hlogs
  | next j => cases hlogs

theorem linesOf_cerr {file : Option Text}
    {tr : History (State Tid) (Action Tid)} {s : State Tid}
    (run : (system file Tid).Exec tr s) (patient : Meets Patient tr)
    (idle : ∀ i, s.pc i = .idle)
    (free : ∀ i, ∀ t ∈ logged file i tr, '\n' ∉ t) :
    linesOf '\n' s.cerr = (completed tr).reverse.map Prod.snd := by
  obtain ⟨rest, hcerr, -, hnobody⟩ := readable_exec run patient
  have hrest := hnobody fun i => by rw [idle i]; rfl
  have hlines : text (completed tr) =
      ((completed tr).reverse.map Prod.snd).flatMap (· ++ ['\n']) := by
    rw [text, List.flatMap_map]
  rw [hcerr, hrest, List.append_nil, hlines]
  refine linesOf_flatMap fun t ht => ?_
  obtain ⟨⟨i, t'⟩, hmem, rfl⟩ := List.mem_map.mp ht
  have hwritten : t' ∈ linesBy i (completed tr) :=
    List.mem_filterMap.mpr ⟨(i, t'), List.mem_reverse.mp hmem, by simp⟩
  refine free i t' ?_
  rw [logged_exec run i]
  exact List.mem_append_right _ hwritten

end Stream

end Iocore.ConsoleLogWriter
