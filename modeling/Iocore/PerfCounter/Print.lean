import Iocore.PerfCounter.Update

/-!
# Printing a counter that is being updated

`operator<<` loads one field after the other while calls of `Update` go on.
Its check of `count_` keeps a counter that was never updated from being
printed with the values its fields start with.  But a call counts itself
before it offers its value to `min_` and `max_`, and a print that gets in
between shows those values all the same.

What is printed is kept as the report.  The elapsed time and the texts around
the numbers are left out.
-/

namespace Iocore.PerfCounter

open Foundation Foundation.System

inductive CounterType where
  | counter
  | bytes
  | time
  deriving DecidableEq, Repr

/-- What was printed; an average and a rate are kept as they are divided. -/
structure Report where
  aggregateValue : Option UInt64
  count : Option UInt64
  max : Option UInt64
  min : Option UInt64
  avg : Option (UInt64 × UInt64)
  bytesPerSec : Option UInt64
  opsPerSec : Option UInt64
  buckets : List (Fin 32 × UInt32)
  deriving DecidableEq, Repr

def Report.empty : Report := ⟨none, none, none, none, none, none, none, []⟩

inductive PrintPc where
  | idle
  | checkCount
  | loadVal
  | loadCount
  | loadMax
  | loadMin
  | testAvg
  | loadAvgVal
  | loadAvgCount (val : UInt64)
  | loadBytes
  | loadOps
  | testCount
  | testBucket (i : Nat)
  | loadBucket (i : Fin 32)
  deriving DecidableEq, Repr

structure Printer where
  pc : PrintPc
  report : Report
  deriving DecidableEq, Repr

def Printer.initial : Printer := ⟨.idle, .empty⟩

def afterAvg (type : CounterType) : PrintPc :=
  if type = .bytes then .loadBytes else .testCount

def print (type : CounterType) (counter : PerfCounter) (p : Printer) : Printer :=
  let report := p.report
  match p.pc with
  | .idle => p
  | .checkCount =>
      if counter.count = 0 then ⟨.idle, report⟩ else ⟨.loadVal, report⟩
  | .loadVal =>
      ⟨.loadCount, { report with aggregateValue := some counter.val }⟩
  | .loadCount => ⟨.loadMax, { report with count := some counter.count }⟩
  | .loadMax => ⟨.loadMin, { report with max := some counter.max }⟩
  | .loadMin => ⟨.testAvg, { report with min := some counter.min }⟩
  | .testAvg =>
      if counter.count = 0 then ⟨afterAvg type, report⟩
      else ⟨.loadAvgVal, report⟩
  | .loadAvgVal => ⟨.loadAvgCount counter.val, report⟩
  | .loadAvgCount val =>
      ⟨afterAvg type, { report with avg := some (val, counter.count) }⟩
  | .loadBytes => ⟨.loadOps, { report with bytesPerSec := some counter.val }⟩
  | .loadOps => ⟨.testCount, { report with opsPerSec := some counter.count }⟩
  | .testCount =>
      if counter.count = 0 then ⟨.idle, report⟩ else ⟨.testBucket 0, report⟩
  | .testBucket i =>
      if h : i < 32 then
        if counter.bucket ⟨i, h⟩ = 0 then ⟨.testBucket (i + 1), report⟩
        else ⟨.loadBucket ⟨i, h⟩, report⟩
      else ⟨.idle, report⟩
  | .loadBucket i =>
      ⟨.testBucket (i + 1),
        { report with buckets := report.buckets ++ [(i, counter.bucket i)] }⟩

theorem print_max {type : CounterType} {counter : PerfCounter} {p : Printer}
    (h : p.pc ≠ .loadMax) :
    (print type counter p).report.max = p.report.max := by
  cases hpc : p.pc with
  | loadMax => exact absurd hpc h
  | checkCount | testAvg | testCount =>
      simp only [print, hpc]
      split <;> rfl
  | testBucket i =>
      simp only [print, hpc]
      split
      · split <;> rfl
      · rfl
  | _ => simp [print, hpc]

theorem print_loadMin {type : CounterType} {counter : PerfCounter} {p : Printer}
    (h : (print type counter p).pc = .loadMin) : p.pc = .loadMax := by
  cases hpc : p.pc with
  | loadMax => rfl
  | checkCount | testCount =>
      simp only [print, hpc] at h
      split at h <;> cases h
  | testAvg | loadAvgCount =>
      cases type <;> simp [print, hpc, afterAvg] at h <;> split at h <;> cases h
  | testBucket i =>
      simp only [print, hpc] at h
      split at h
      · split at h <;> cases h
      · cases h
  | _ => simp [print, hpc] at h

structure PrintState (Tid : Type) where
  updates : State Tid
  printer : Printer

inductive PrintAction (Tid : Type) where
  | update (a : Action Tid)
  | print
  | next
  deriving DecidableEq, Repr

variable {Tid : Type} [DecidableEq Tid]

def printExec (type : CounterType) (s : PrintState Tid) :
    PrintAction Tid → Code (PrintState Tid)
  | .update a => do
      let updates ← exec s.updates a
      return { s with updates := updates }
  | .print =>
      if s.printer.pc = .idle then
        .ok { s with printer := ⟨.checkCount, .empty⟩ }
      else .error .blocked
  | .next =>
      if s.printer.pc = .idle then .error .blocked
      else .ok { s with printer := print type s.updates.counter s.printer }

def printing (type : CounterType) (Tid : Type) [DecidableEq Tid] :
    System (PrintState Tid) (PrintAction Tid) :=
  .ofFunction (fun s => s = ⟨initial Tid, .initial⟩) (printExec type)

def started (tr : History (PrintState Tid) (PrintAction Tid)) : List UInt32 :=
  observed (fun _ a => match a with
    | .update a => a.began
    | _ => none) tr

/-! ## The fields in between -/

def Pc.pastMin : Pc → Option UInt64
  | .loadMax val | .exchangeMax val _ _ | .addBucket val => some val.toUInt64
  | _ => none

structure Ordered (s : State Tid) : Prop where
  stored : s.counter.max = 0 ∨ s.counter.min ≤ s.counter.max
  passed : ∀ i v, (s.pc i).pastMin = some v → s.counter.min ≤ v

namespace Ordered

variable {s s' : State Tid} {i : Tid} {pc : Pc} {counter : PerfCounter}

omit [DecidableEq Tid] in
theorem initial : Ordered (PerfCounter.initial Tid) where
  stored := .inl rfl
  passed _ _ h := by cases h

private theorem goto (h : Ordered s) (smaller : counter.min ≤ s.counter.min)
    (stored : counter.max = s.counter.max ∨ counter.min ≤ counter.max)
    (passed : ∀ v, pc.pastMin = some v →
      (s.pc i).pastMin = some v ∨ counter.min ≤ v) :
    Ordered (s.goto i pc counter) where
  stored := by
    rcases stored with same | stored
    · change counter.max = 0 ∨ counter.min ≤ counter.max
      rw [same]
      exact h.stored.imp_right (UInt64.le_trans smaller)
    · exact .inr stored
  passed := by
    intro j v hv
    by_cases hj : j = i
    · subst hj
      simp only [State.goto, Function.update_self] at hv
      rcases passed v hv with hbefore | hgood
      · exact UInt64.le_trans smaller (h.passed j v hbefore)
      · exact hgood
    · simp only [State.goto, Function.update_of_ne hj] at hv
      exact UInt64.le_trans smaller (h.passed j v hv)

theorem step (h : Ordered s) {a : Action Tid} (hstep : StepCases s a s') :
    Ordered s' := by
  cases hstep with
  | call i val before | addVal i val before | addCount i val before
  | addBucket i val before =>
      exact h.goto (UInt64.le_refl _) (.inl rfl) fun v hv => by cases hv
  | loadMin i val before less =>
      exact h.goto (UInt64.le_refl _) (.inl rfl) fun v hv => by cases hv
  | retryMin i val minCount less before stale =>
      exact h.goto (UInt64.le_refl _) (.inl rfl) fun v hv => by cases hv
  | leaveMin i val before least =>
      refine h.goto (UInt64.le_refl _) (.inl rfl) fun v hv => ?_
      cases hv
      exact .inr (UInt64.not_lt.mp least)
  | exchangeMin i val less before =>
      exact h.goto (UInt64.le_of_lt less) (.inl rfl) fun v hv => by cases hv
  | loadMax i val before greater =>
      refine h.goto (UInt64.le_refl _) (.inl rfl) fun v hv => .inl ?_
      rw [before]
      exact hv
  | retryMax i val maxCount greater before stale =>
      refine h.goto (UInt64.le_refl _) (.inl rfl) fun v hv => .inl ?_
      rw [before]
      exact hv
  | leaveMax i val before greatest =>
      refine h.goto (UInt64.le_refl _) (.inl rfl) fun v hv => .inl ?_
      rw [before]
      exact hv
  | exchangeMax i val greater before =>
      have hpassed : s.counter.min ≤ val.toUInt64 :=
        h.passed i _ (by rw [before]; rfl)
      refine h.goto (UInt64.le_refl _) (.inr hpassed) fun v hv => .inl ?_
      rw [before]
      exact hv

end Ordered

/-! ## What the calls have stored in time -/

def storesMax (s : PrintState Tid) : PrintAction Tid → Bool
  | .update (.next i) =>
      match s.updates.pc i with
      | .exchangeMax _ maxCount _ => s.updates.counter.max = maxCount
      | _ => false
  | _ => false

def storesZero (s : PrintState Tid) : PrintAction Tid → Bool
  | .update (.next i) =>
      match s.updates.pc i with
      | .exchangeMin val minCount _ =>
          val = 0 && s.updates.counter.min = minCount
      | _ => false
  | _ => false

/-- What happened before the last load of `max_`. -/
def beforeMax : History (PrintState Tid) (PrintAction Tid) →
    History (PrintState Tid) (PrintAction Tid)
  | [] => []
  | (s, .next) :: tr => if s.printer.pc = .loadMax then tr else beforeMax tr
  | _ :: tr => beforeMax tr

/--
When a print gets to `min_`, a call had stored its value in `max_` before the
print loaded it, or a call with the value 0 has stored that in `min_`.
-/
def StoredInTime : History (PrintState Tid) (PrintAction Tid) → Prop
  | [] => True
  | (s, a) :: tr =>
      (a = .next → s.printer.pc = .loadMin →
        (∃ p ∈ beforeMax tr, storesMax p.1 p.2 = true) ∨
          ∃ p ∈ tr, storesZero p.1 p.2 = true) ∧ StoredInTime tr

instance decidableStoredInTime :
    (tr : History (PrintState Tid) (PrintAction Tid)) →
      Decidable (StoredInTime tr)
  | [] => .isTrue trivial
  | (_, _) :: tr =>
      have := decidableStoredInTime tr
      inferInstanceAs (Decidable ((_ → _ → _ ∨ _) ∧ _))

theorem printed_cases {type : CounterType} {s s' : PrintState Tid}
    {a : PrintAction Tid} (h : printExec type s a = .ok s') :
    (∃ u updates, a = .update u ∧ StepCases s.updates u updates ∧
        s' = { s with updates := updates }) ∨
      (a = .print ∧ s' = { s with printer := ⟨.checkCount, .empty⟩ }) ∨
      (a = .next ∧
        s' = { s with printer := print type s.updates.counter s.printer }) := by
  cases a with
  | update u =>
      obtain ⟨updates, hupdate, hresult⟩ := Code.bind_eq_ok.mp h
      cases hresult
      exact .inl ⟨u, updates, rfl, step_cases hupdate, rfl⟩
  | print =>
      simp only [printExec] at h
      split_ifs at h
      cases h
      exact .inr (.inl ⟨rfl, rfl⟩)
  | next =>
      simp only [printExec] at h
      split_ifs at h
      cases h
      exact .inr (.inr ⟨rfl, rfl⟩)

theorem max_ne_zero_step {s : PrintState Tid} {u : Action Tid}
    {updates : State Tid} (h : StepCases s.updates u updates) :
    updates.counter.max ≠ 0 ↔
      storesMax s (.update u) = true ∨ s.updates.counter.max ≠ 0 := by
  cases h with
  | exchangeMax i val greater before =>
      have hval : val.toUInt64 ≠ 0 := fun hzero => by
        rw [hzero] at greater
        exact absurd greater (UInt64.not_lt.mpr UInt64.zero_le)
      have hstores : storesMax s (.update (.next i)) = true := by
        simp [storesMax, before]
      exact iff_of_true hval (.inl hstores)
  | retryMax i val maxCount greater before stale =>
      simp [storesMax, before, stale, State.goto]
  | call i val before => simp [storesMax, State.goto]
  | addVal i val before | addCount i val before | loadMin i val before
  | leaveMin i val before | exchangeMin i val less before
  | retryMin i val minCount less before | loadMax i val before
  | leaveMax i val before | addBucket i val before =>
      simp [storesMax, before, State.goto]

theorem min_eq_zero_step {s : PrintState Tid} {u : Action Tid}
    {updates : State Tid} (h : StepCases s.updates u updates) :
    updates.counter.min = 0 ↔
      storesZero s (.update u) = true ∨ s.updates.counter.min = 0 := by
  cases h with
  | exchangeMin i val less before =>
      have hmin : s.updates.counter.min ≠ 0 := fun hzero => by
        rw [hzero] at less
        exact absurd less (UInt64.not_lt.mpr UInt64.zero_le)
      have hval : val.toUInt64 = 0 ↔ val = 0 := by
        rw [← UInt64.toNat_inj, ← UInt32.toNat_inj, UInt32.toNat_toUInt64]
        rfl
      simp [storesZero, before, State.goto, hmin, hval]
  | retryMin i val minCount less before stale =>
      simp [storesZero, before, stale, State.goto]
  | call i val before => simp [storesZero, State.goto]
  | addVal i val before | addCount i val before | loadMin i val before
  | leaveMin i val before | exchangeMax i val greater before
  | retryMax i val maxCount greater before | loadMax i val before
  | leaveMax i val before | addBucket i val before =>
      simp [storesZero, before, State.goto]

structure Shows (tr : History (PrintState Tid) (PrintAction Tid))
    (s : PrintState Tid) : Prop where
  max : s.updates.counter.max ≠ 0 ↔ ∃ p ∈ tr, storesMax p.1 p.2 = true
  min : s.updates.counter.min = 0 ↔ ∃ p ∈ tr, storesZero p.1 p.2 = true
  loaded : s.printer.pc = .loadMin →
    (s.printer.report.max ≠ some 0 ↔
      ∃ p ∈ beforeMax tr, storesMax p.1 p.2 = true)

theorem Shows.exec {type : CounterType}
    {tr : History (PrintState Tid) (PrintAction Tid)} {s : PrintState Tid}
    (run : (printing type Tid).Exec tr s) : Shows tr s := by
  refine Exec.historyInvariant Shows ?_ ?_ run
  · rintro s rfl
    refine ⟨by simp [initial, construct], by simp [initial, construct, UINT32_MAX],
      fun hpc => ?_⟩
    cases hpc
  · intro tr s a s' _ h step
    rcases printed_cases step with ⟨u, updates, rfl, hstep, rfl⟩ | ⟨rfl, rfl⟩ |
      ⟨rfl, rfl⟩
    · refine ⟨?_, ?_, h.loaded⟩
      · rw [max_ne_zero_step hstep, h.max]
        simp
      · rw [min_eq_zero_step hstep, h.min]
        simp
    · refine ⟨?_, ?_, fun hpc => ?_⟩
      · rw [h.max]
        simp [storesMax]
      · rw [h.min]
        simp [storesZero]
      · cases hpc
    · refine ⟨?_, ?_, fun hpc => ?_⟩
      · rw [h.max]
        simp [storesMax]
      · rw [h.min]
        simp [storesZero]
      · have hbefore := print_loadMin hpc
        rw [beforeMax, if_pos hbefore, ← h.max]
        simp [print, hbefore]

variable [Fintype Tid]

/-- What a print that has loaded the maximum knows about it. -/
structure Printing (vals : List UInt32) (s : PrintState Tid) : Prop where
  accounted : Accounted vals s.updates
  ordered : Ordered s.updates
  max : ∀ max, s.printer.report.max = some max →
    max = 0 ∨ s.updates.counter.min ≤ max ∧ max ∈ offered vals
  loaded : s.printer.pc = .loadMin → ∃ max, s.printer.report.max = some max

namespace Printing

variable {type : CounterType} {vals : List UInt32} {s s' : PrintState Tid}

theorem update (h : Printing vals s) {a : Action Tid} {updates : State Tid}
    (hstep : StepCases s.updates a updates) :
    Printing (a.began.toList ++ vals) { s with updates := updates } where
  accounted := h.accounted.step hstep
  ordered := h.ordered.step hstep
  max := by
    intro max hmax
    refine (h.max max hmax).imp_right fun ⟨hle, hmem⟩ =>
      ⟨UInt64.le_trans hstep.min_le hle, ?_⟩
    rw [offered, List.map_append]
    exact List.mem_append_right _ hmem
  loaded := h.loaded

omit [DecidableEq Tid] in
theorem load (h : Printing vals s) :
    Printing vals
      { s with printer := print type s.updates.counter s.printer } where
  accounted := h.accounted
  ordered := h.ordered
  max := by
    intro max hmax
    by_cases hpc : s.printer.pc = .loadMax
    · obtain rfl : s.updates.counter.max = max := by
        simpa [print, hpc] using hmax
      rcases h.ordered.stored with hzero | hle
      · exact .inl hzero
      · exact h.accounted.max.offered.imp_right fun hmem => ⟨hle, hmem⟩
    · rw [print_max hpc] at hmax
      exact h.max max hmax
  loaded := by
    intro hpc
    have hbefore := print_loadMin hpc
    simp [print, hbefore]

theorem exec {tr : History (PrintState Tid) (PrintAction Tid)}
    (run : (printing type Tid).Exec tr s) : Printing (started tr) s := by
  refine Exec.historyInvariant (fun tr s => Printing (started tr) s) ?_ ?_ run
  · rintro s rfl
    exact ⟨.initial, .initial, fun max h => (by cases h), fun h => by cases h⟩
  · intro tr s a s' run h step
    rw [started, observed_cons]
    rcases printed_cases step with ⟨u, updates, rfl, hstep, rfl⟩ | ⟨rfl, rfl⟩ |
      ⟨rfl, rfl⟩
    · exact h.update hstep
    · exact ⟨h.accounted, h.ordered, fun max h => (by cases h),
        fun h => by cases h⟩
    · exact h.load

end Printing

/-! ## What is printed -/

def Report.Consistent (vals : List UInt32) (r : Report) : Prop :=
  ∃ min max, r.min = some min ∧ r.max = some max ∧ min ≤ max ∧
    min ∈ offered vals ∧ max ∈ offered vals

theorem Report.consistent_iff {vals : List UInt32} {r : Report}
    {min max : UInt64} (hmin : r.min = some min) (hmax : r.max = some max) :
    r.Consistent vals ↔
      min ≤ max ∧ min ∈ offered vals ∧ max ∈ offered vals := by
  rw [Report.Consistent, hmin, hmax]
  constructor
  · rintro ⟨_, _, ⟨⟩, ⟨⟩, h⟩
    exact h
  · exact fun h => ⟨min, max, rfl, rfl, h⟩

def PrintsConsistently (type : CounterType)
    (tr : History (PrintState Tid) (PrintAction Tid)) : Prop :=
  ∀ later s past, tr = later ++ (s, .next) :: past → s.printer.pc = .loadMin →
    (print type s.updates.counter s.printer).report.Consistent (started past)

theorem le_of_mem_offered {vals : List UInt32} {v : UInt64}
    (h : v ∈ offered vals) : v ≤ UINT32_MAX := by
  obtain ⟨val, -, rfl⟩ := List.mem_map.mp h
  have hlt := val.toNat_lt
  rw [UInt64.le_iff_toNat_le, UInt32.toNat_toUInt64]
  change val.toNat ≤ 2 ^ 32 - 1
  omega

omit [DecidableEq Tid] in
theorem Printing.consistent_iff {type : CounterType} {vals : List UInt32}
    {s : PrintState Tid} (h : Printing vals s) (hpc : s.printer.pc = .loadMin) :
    (print type s.updates.counter s.printer).report.Consistent vals ↔
      s.printer.report.max ≠ some 0 ∨ s.updates.counter.min = 0 := by
  obtain ⟨max, hmax⟩ := h.loaded hpc
  have hprinted : (print type s.updates.counter s.printer).report.min =
      some s.updates.counter.min := by
    simp [print, hpc]
  have hkept : (print type s.updates.counter s.printer).report.max = some max := by
    rw [print_max (by rw [hpc]; nofun), hmax]
  rw [Report.consistent_iff hprinted hkept, hmax, ne_eq, Option.some.injEq]
  constructor
  · rintro ⟨hle, -, -⟩
    refine or_iff_not_imp_left.mpr fun hzero => ?_
    rw [not_not.mp hzero] at hle
    exact UInt64.le_antisymm hle UInt64.zero_le
  · intro hcond
    rcases h.max max hmax with rfl | ⟨hle, hmem⟩
    · -- Nothing was stored in `max_`, so the 0 in `min_` is from a call.
      have hmin : s.updates.counter.min = 0 :=
        hcond.resolve_left fun hne => hne rfl
      have hoffered : (0 : UInt64) ∈ offered vals := by
        rw [← hmin]
        refine h.accounted.min.offered.resolve_left fun hfirst => ?_
        rw [hmin] at hfirst
        exact absurd hfirst (by decide)
      rw [hmin]
      exact ⟨UInt64.le_refl _, hoffered, hoffered⟩
    · refine ⟨hle, ?_, hmem⟩
      rcases h.accounted.min.offered with hfirst | hoffered
      · have heq : s.updates.counter.min = max :=
          UInt64.le_antisymm hle (hfirst ▸ le_of_mem_offered hmem)
        rwa [heq]
      · exact hoffered

theorem Printing.consistent_iff_stored {type : CounterType}
    {tr : History (PrintState Tid) (PrintAction Tid)} {s : PrintState Tid}
    (run : (printing type Tid).Exec tr s) (hpc : s.printer.pc = .loadMin) :
    (print type s.updates.counter s.printer).report.Consistent (started tr) ↔
      (∃ p ∈ beforeMax tr, storesMax p.1 p.2 = true) ∨
        ∃ p ∈ tr, storesZero p.1 p.2 = true := by
  have hshows := Shows.exec run
  rw [(Printing.exec run).consistent_iff hpc, hshows.loaded hpc, hshows.min]

/--
In a run, every print shows a consistent minimum and maximum precisely when
some call had stored its value before the print got to it.
-/
theorem printsConsistently_iff {type : CounterType}
    {tr : History (PrintState Tid) (PrintAction Tid)} {s : PrintState Tid}
    (run : (printing type Tid).Exec tr s) :
    PrintsConsistently type tr ↔ StoredInTime tr := by
  induction run with
  | start init =>
      refine ⟨fun _ => trivial, fun _ later s past hsplit => ?_⟩
      simp at hsplit
  | @next tr s s' a run step ih =>
      have hhere : s.printer.pc = .loadMin → _ :=
        Printing.consistent_iff_stored run
      constructor
      · intro hprints
        refine ⟨fun hnext hpc => ?_, ih.mp fun later y past hsplit => ?_⟩
        · subst hnext
          exact (hhere hpc).mp (hprints [] s tr rfl hpc)
        · exact hprints ((s, a) :: later) y past (by rw [hsplit]; rfl)
      · rintro ⟨hnow, hearlier⟩ later y past hsplit hpc
        cases later with
        | nil =>
            cases hsplit
            exact (hhere hpc).mpr (hnow rfl hpc)
        | cons p later =>
            exact ih.mpr hearlier later y past (List.cons.inj hsplit).2 hpc

theorem not_printsConsistently :
    ¬ ∀ tr s, (printing .counter Unit).Exec tr s →
      PrintsConsistently .counter tr := by
  intro consistently
  obtain ⟨tr, s, run, htest⟩ : ∃ tr s, (printing .counter Unit).Exec tr s ∧
      decide (s.printer.pc = .loadMin ∧ s.printer.report.max = some 0 ∧
        s.updates.counter.min = UINT32_MAX) = true :=
    Exec.ofRecord (printExec .counter) ⟨initial Unit, .initial⟩
      [.update (.update () 3), .update (.next ()), .update (.next ()), .print,
        .next, .next, .next, .next]
      (fun r => decide (r.2.printer.pc = .loadMin ∧
        r.2.printer.report.max = some 0 ∧
        r.2.updates.counter.min = UINT32_MAX)) rfl (by decide)
  obtain ⟨hpc, hmax, hmin⟩ := of_decide_eq_true htest
  have hstep : (printing .counter Unit).step s .next
      { s with printer := print .counter s.updates.counter s.printer } := by
    change printExec .counter s .next = _
    simp [printExec, hpc]
  have hcond := ((Printing.exec run).consistent_iff hpc).mp
    (consistently _ _ (run.next hstep) [] s tr rfl hpc)
  rw [hmax, hmin] at hcond
  exact absurd hcond (by decide)

theorem printsConsistently_returned :
    ∃ tr s, (printing .counter (Fin 2)).Exec tr s ∧
      (s.printer.report.min = some 3 ∧ s.printer.report.max = some 3) ∧
      PrintsConsistently .counter tr := by
  obtain ⟨tr, s, run, htest⟩ : ∃ tr s, (printing .counter (Fin 2)).Exec tr s ∧
      decide (StoredInTime tr ∧ s.printer.report.min = some 3 ∧
        s.printer.report.max = some 3) = true :=
    Exec.ofRecord (printExec .counter) ⟨initial (Fin 2), .initial⟩
      [.update (.update 0 3), .update (.next 0), .update (.next 0),
        .update (.next 0), .update (.next 0), .update (.next 0),
        .update (.next 0), .update (.next 0), .update (.next 0),
        .update (.next 0), .update (.update 1 2), .update (.next 1),
        .update (.next 1), .print, .next, .next, .next, .next, .next]
      (fun r => decide (StoredInTime r.1 ∧
        r.2.printer.report.min = some 3 ∧ r.2.printer.report.max = some 3)) rfl
      (by decide)
  obtain ⟨hstored, hreport⟩ := of_decide_eq_true htest
  exact ⟨tr, s, run, hreport, (printsConsistently_iff run).mpr hstored⟩

end Iocore.PerfCounter
