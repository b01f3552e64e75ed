import Iocore.PerfCounter.Print

/-!
# What a print can show

While no field starts over, a counter only moves one way: the totals, the
maximum and the buckets grow, and the minimum falls.  So what a print loads lies
between the counter as the print found it and the counter as it left it,
whatever the other threads do in between.
-/

namespace Iocore.PerfCounter

open Foundation Foundation.System

/-- Every field of `c'` is that of `c` or has moved on from there. -/
structure Earlier (c c' : PerfCounter) : Prop where
  val : c.val ≤ c'.val
  count : c.count ≤ c'.count
  min : c'.min ≤ c.min
  max : c.max ≤ c'.max
  bucket : ∀ b, c.bucket b ≤ c'.bucket b

namespace Earlier

variable {c c' c'' : PerfCounter}

theorem refl (c : PerfCounter) : Earlier c c :=
  ⟨UInt64.le_refl _, UInt64.le_refl _, UInt64.le_refl _, UInt64.le_refl _,
    fun _ => UInt32.le_refl _⟩

theorem trans (h : Earlier c c') (h' : Earlier c' c'') : Earlier c c'' where
  val := UInt64.le_trans h.val h'.val
  count := UInt64.le_trans h.count h'.count
  min := UInt64.le_trans h'.min h.min
  max := UInt64.le_trans h.max h'.max
  bucket b := UInt32.le_trans (h.bucket b) (h'.bucket b)

end Earlier

/-! ## Counting without wrapping around -/

variable {Tid : Type} [DecidableEq Tid]

section Exact

variable [Fintype Tid]

structure Exact (vals : List UInt32) (s : State Tid) : Prop where
  val : Ledger 0 Pc.carriedVal s.pc s.counter.val.toNat (sum vals)
  count : Ledger 0 Pc.carriedCount s.pc s.counter.count.toNat vals.length
  bucket : ∀ b, Ledger 0 (Pc.carriedBucket b) s.pc
    (s.counter.bucket b).toNat (vals.countP fun val => Belongs b val)

namespace Exact

variable {vals : List UInt32} {s s' : State Tid} {i : Tid}

omit [DecidableEq Tid] in
theorem initial : Exact [] (PerfCounter.initial Tid) where
  val := (Ledger.at_rest fun _ => rfl).mpr rfl
  count := (Ledger.at_rest fun _ => rfl).mpr rfl
  bucket _ := (Ledger.at_rest fun _ => rfl).mpr rfl

omit [DecidableEq Tid] in
theorem carried_le {carried : Pc → ℕ} {cell amount : ℕ}
    (h : Ledger 0 carried s.pc cell amount) (i : Tid) :
    cell + carried (s.pc i) ≤ amount := by
  have hexact : cell + total carried s.pc = amount := Nat.modEq_zero_iff.mp h
  have hle := le_total carried s.pc i
  omega

theorem goto (h : Exact vals s) {pc : Pc} {counter : PerfCounter}
    (val : counter.val.toNat + pc.carriedVal =
      s.counter.val.toNat + (s.pc i).carriedVal)
    (count : counter.count.toNat + pc.carriedCount =
      s.counter.count.toNat + (s.pc i).carriedCount)
    (bucket : ∀ b, (counter.bucket b).toNat + pc.carriedBucket b =
      (s.counter.bucket b).toNat + (s.pc i).carriedBucket b) :
    Exact vals (s.goto i pc counter) :=
  ⟨h.val.move val, h.count.move count, fun b => (h.bucket b).move (bucket b)⟩

theorem call (h : Exact vals s) (before : s.pc i = .idle) (val : UInt32) :
    Exact (val :: vals) (s.goto i (.addVal val) s.counter) where
  val := h.val.issue (by rw [before]; exact (Nat.zero_add _).symm)
  count := by
    rw [List.length_cons, Nat.add_comm]
    exact h.count.issue (by rw [before]; rfl)
  bucket b := by
    rw [List.countP_cons, Nat.add_comm]
    refine (h.bucket b).issue ?_
    rw [before]
    simp [Pc.carriedBucket, Pc.value]

theorem sum_lt (few : vals.length < 2 ^ 32) : sum vals < 2 ^ 64 := by
  have hle : sum vals ≤ vals.length * (2 ^ 32 - 1) := by
    rw [sum, ← List.length_map UInt32.toNat]
    refine List.sum_le_card_nsmul _ _ fun n hn => ?_
    obtain ⟨val, -, rfl⟩ := List.mem_map.mp hn
    have hlt := val.toNat_lt
    omega
  omega

theorem step (h : Exact vals s) {a : Action Tid} (hstep : StepCases s a s')
    (few : (a.began.toList ++ vals).length < 2 ^ 32) :
    Exact (a.began.toList ++ vals) s' ∧ Earlier s.counter s'.counter := by
  cases hstep with
  | call i val before => exact ⟨h.call before val, .refl _⟩
  | addVal i val before =>
      have hle := carried_le h.val i
      have hlt := sum_lt few
      rw [before] at hle
      change s.counter.val.toNat + val.toNat ≤ sum vals at hle
      change sum vals < 2 ^ 64 at hlt
      have hadd : (s.counter.val + val.toUInt64).toNat =
          s.counter.val.toNat + val.toNat := by
        rw [UInt64.toNat_add, UInt32.toNat_toUInt64]
        exact Nat.mod_eq_of_lt (by omega)
      have hgrows : s.counter.val ≤ s.counter.val + val.toUInt64 := by
        rw [UInt64.le_iff_toNat_le, hadd]
        omega
      refine ⟨h.goto ?_ ?_ fun b => ?_,
        { Earlier.refl s.counter with val := hgrows }⟩
      · rw [hadd, before]
        rfl
      · rw [before]
        rfl
      · rw [before]
        rfl
  | addCount i val before =>
      have hle := carried_le h.count i
      rw [before] at hle
      change s.counter.count.toNat + 1 ≤ vals.length at hle
      change vals.length < 2 ^ 32 at few
      have hadd : (s.counter.count + 1).toNat = s.counter.count.toNat + 1 := by
        rw [UInt64.toNat_add]
        exact Nat.mod_eq_of_lt (by
          change s.counter.count.toNat + 1 < 2 ^ 64
          omega)
      have hgrows : s.counter.count ≤ s.counter.count + 1 := by
        rw [UInt64.le_iff_toNat_le, hadd]
        omega
      refine ⟨h.goto ?_ ?_ fun b => ?_,
        { Earlier.refl s.counter with count := hgrows }⟩
      · rw [before]
        rfl
      · rw [hadd, before]
        rfl
      · rw [before]
        rfl
  | addBucket i val before =>
      have hadd : ∀ b, (if Belongs b val then s.counter.bucket b + 1
          else s.counter.bucket b).toNat =
          (s.counter.bucket b).toNat + Pc.carriedBucket b (.addBucket val) := by
        intro b
        have hle := carried_le (h.bucket b) i
        rw [before] at hle
        have hlength : vals.countP (fun val => Belongs b val) ≤ vals.length :=
          List.countP_le_length
        change vals.length < 2 ^ 32 at few
        simp only [Pc.carriedBucket, Pc.value] at hle ⊢
        split
        case isTrue hbelongs =>
          rw [if_pos hbelongs] at hle
          rw [UInt32.toNat_add]
          exact Nat.mod_eq_of_lt (by
            change (s.counter.bucket b).toNat + 1 < 2 ^ 32
            omega)
        case isFalse => rfl
      refine ⟨h.goto ?_ ?_ fun b => ?_,
        { Earlier.refl s.counter with bucket := fun b => ?_ }⟩
      · rw [before]
        rfl
      · rw [before]
        rfl
      · rw [before]
        exact hadd b
      · rw [UInt32.le_iff_toNat_le]
        change _ ≤ (if Belongs b val then s.counter.bucket b + 1
          else s.counter.bucket b).toNat
        rw [hadd b]
        omega
  | loadMin i val before | leaveMin i val before | retryMin i val _ _ before
  | loadMax i val before | leaveMax i val before | retryMax i val _ _ before =>
      refine ⟨h.goto ?_ ?_ fun b => ?_, .refl _⟩ <;> rw [before] <;> rfl
  | exchangeMin i val less before =>
      refine ⟨h.goto ?_ ?_ fun b => ?_, { Earlier.refl s.counter with
        min := UInt64.le_of_lt less }⟩ <;> rw [before] <;> rfl
  | exchangeMax i val greater before =>
      refine ⟨h.goto ?_ ?_ fun b => ?_, { Earlier.refl s.counter with
        max := UInt64.le_of_lt greater }⟩ <;> rw [before] <;> rfl

end Exact

end Exact

/-! ## What was loaded -/

structure Report.Between (first last : PerfCounter) (r : Report) : Prop where
  aggregateValue : ∀ v, r.aggregateValue = some v → first.val ≤ v ∧ v ≤ last.val
  count : ∀ n, r.count = some n → first.count ≤ n ∧ n ≤ last.count
  max : ∀ v, r.max = some v → first.max ≤ v ∧ v ≤ last.max
  min : ∀ v, r.min = some v → last.min ≤ v ∧ v ≤ first.min
  avg : ∀ v n, r.avg = some (v, n) →
    (first.val ≤ v ∧ v ≤ last.val) ∧ first.count ≤ n ∧ n ≤ last.count
  bytesPerSec : ∀ v, r.bytesPerSec = some v → first.val ≤ v ∧ v ≤ last.val
  opsPerSec : ∀ n, r.opsPerSec = some n → first.count ≤ n ∧ n ≤ last.count
  buckets : ∀ b n, (b, n) ∈ r.buckets → first.bucket b ≤ n ∧ n ≤ last.bucket b

structure Printer.Between (first last : PerfCounter) (p : Printer) : Prop where
  ordered : Earlier first last
  report : p.report.Between first last
  held : ∀ v, p.pc = .loadAvgCount v → first.val ≤ v ∧ v ≤ last.val

namespace Printer.Between

variable {first last last' : PerfCounter} {p : Printer}

theorem later (h : p.Between first last) (hlast : Earlier last last') :
    p.Between first last' where
  ordered := h.ordered.trans hlast
  report :=
    { aggregateValue := fun v hv =>
        (h.report.aggregateValue v hv).imp_right (UInt64.le_trans · hlast.val)
      count := fun n hn =>
        (h.report.count n hn).imp_right (UInt64.le_trans · hlast.count)
      max := fun v hv =>
        (h.report.max v hv).imp_right (UInt64.le_trans · hlast.max)
      min := fun v hv =>
        (h.report.min v hv).imp_left (UInt64.le_trans hlast.min)
      avg := fun v n hv =>
        (h.report.avg v n hv).imp (And.imp_right (UInt64.le_trans · hlast.val))
          (And.imp_right (UInt64.le_trans · hlast.count))
      bytesPerSec := fun v hv =>
        (h.report.bytesPerSec v hv).imp_right (UInt64.le_trans · hlast.val)
      opsPerSec := fun n hn =>
        (h.report.opsPerSec n hn).imp_right (UInt64.le_trans · hlast.count)
      buckets := fun b n hn =>
        (h.report.buckets b n hn).imp_right (UInt32.le_trans · (hlast.bucket b)) }
  held v hv := (h.held v hv).imp_right (UInt64.le_trans · hlast.val)

theorem begin (c : PerfCounter) : Printer.Between c c ⟨.checkCount, .empty⟩ where
  ordered := .refl c
  report := by constructor <;> simp [Report.empty]
  held := nofun

theorem moved (h : p.Between first last) {q : Printer}
    (report : q.report.Between first last)
    (other : ∀ v, q.pc ≠ .loadAvgCount v) : q.Between first last :=
  ⟨h.ordered, report, fun v hv => absurd hv (other v)⟩

theorem afterAvg_ne (type : CounterType) (v : UInt64) :
    afterAvg type ≠ .loadAvgCount v := by
  cases type <;> simp [afterAvg]

theorem load (h : p.Between first last) (type : CounterType) :
    (print type last p).Between first last := by
  have hval := And.intro h.ordered.val (UInt64.le_refl last.val)
  have hcount := And.intro h.ordered.count (UInt64.le_refl last.count)
  cases hpc : p.pc with
  | idle => simpa only [print, hpc] using h
  | checkCount | testCount =>
      simp only [print, hpc]
      split <;> exact h.moved h.report (by simp)
  | testAvg =>
      simp only [print, hpc]
      split
      · exact h.moved h.report (afterAvg_ne type)
      · exact h.moved h.report (by simp)
  | loadVal =>
      simp only [print, hpc]
      refine h.moved { h.report with aggregateValue := fun v hv => ?_ } (by simp)
      cases hv
      exact hval
  | loadCount =>
      simp only [print, hpc]
      refine h.moved { h.report with count := fun n hn => ?_ } (by simp)
      cases hn
      exact hcount
  | loadMax =>
      simp only [print, hpc]
      refine h.moved { h.report with max := fun v hv => ?_ } (by simp)
      cases hv
      exact ⟨h.ordered.max, UInt64.le_refl _⟩
  | loadMin =>
      simp only [print, hpc]
      refine h.moved { h.report with min := fun v hv => ?_ } (by simp)
      cases hv
      exact ⟨UInt64.le_refl _, h.ordered.min⟩
  | loadAvgVal =>
      simp only [print, hpc]
      refine ⟨h.ordered, h.report, fun v hv => ?_⟩
      cases hv
      exact hval
  | loadAvgCount val =>
      simp only [print, hpc]
      refine h.moved { h.report with avg := fun v n hv => ?_ } (afterAvg_ne type)
      cases hv
      exact ⟨h.held val hpc, hcount⟩
  | loadBytes =>
      simp only [print, hpc]
      refine h.moved { h.report with bytesPerSec := fun v hv => ?_ } (by simp)
      cases hv
      exact hval
  | loadOps =>
      simp only [print, hpc]
      refine h.moved { h.report with opsPerSec := fun n hn => ?_ } (by simp)
      cases hn
      exact hcount
  | testBucket i =>
      simp only [print, hpc]
      split
      · split <;> exact h.moved h.report (by simp)
      · exact h.moved h.report (by simp)
  | loadBucket i =>
      simp only [print, hpc]
      refine h.moved { h.report with buckets := fun b n hn => ?_ } (by simp)
      rcases List.mem_append.mp hn with hold | hnew
      · exact h.report.buckets b n hold
      · cases List.mem_singleton.mp hnew
        exact ⟨h.ordered.bucket i, UInt32.le_refl _⟩

end Printer.Between

/-! ## Runs with prints -/

def printedFrom (tr : History (PrintState Tid) (PrintAction Tid)) :
    Option PerfCounter :=
  (observed (fun s a => match a with
    | .print => some s.updates.counter
    | _ => none) tr).head?

variable [Fintype Tid] {type : CounterType} {s : PrintState Tid}
  {tr : History (PrintState Tid) (PrintAction Tid)}

theorem between_exec (run : (printing type Tid).Exec tr s)
    (few : (started tr).length < 2 ^ 32) :
    Exact (started tr) s.updates ∧ ∀ first, printedFrom tr = some first →
      s.printer.Between first s.updates.counter := by
  induction run with
  | start init =>
      obtain rfl := init
      exact ⟨.initial, fun _ hnone => by cases hnone⟩
  | @next tr s s' a run step ih =>
      change printExec type s a = .ok s' at step
      have hstarted : started ((s, a) :: tr) = _ ++ started tr :=
        observed_cons ..
      rw [hstarted, List.length_append] at few
      obtain ⟨exact', hbetween⟩ := ih (by omega)
      rw [← List.length_append] at few
      cases a with
      | update a =>
          simp only [printExec, Code.bind_eq_ok] at step
          obtain ⟨updates, hupdate, hresult⟩ := step
          cases hresult
          obtain ⟨hexact, hearlier⟩ := exact'.step (step_cases hupdate) few
          exact ⟨hstarted ▸ hexact, fun first hfirst =>
            (hbetween first hfirst).later hearlier⟩
      | print =>
          simp only [printExec] at step
          split_ifs at step
          cases step
          refine ⟨hstarted ▸ exact', fun first hfirst => ?_⟩
          obtain rfl : s.updates.counter = first := Option.some.inj hfirst
          exact .begin _
      | next =>
          simp only [printExec] at step
          split_ifs at step
          cases step
          exact ⟨hstarted ▸ exact', fun first hfirst =>
            (hbetween first hfirst).load type⟩

/--
What a print has loaded is between what it found as it began and what is there
now, for every field and whatever is updated meanwhile, while fewer than `2 ^ 32`
calls of `Update` were begun.
-/
theorem print_brackets (run : (printing type Tid).Exec tr s)
    (few : (started tr).length < 2 ^ 32) {first : PerfCounter}
    (found : printedFrom tr = some first) :
    s.printer.report.Between first s.updates.counter :=
  ((between_exec run few).2 first found).report

theorem overtaken_print_brackets :
    ∃ tr s first, (printing .counter (Fin 1)).Exec tr s ∧
      printedFrom tr = some first ∧ first.count = 1 ∧
      s.printer.report.count = some 2 ∧
      s.printer.report.Between first s.updates.counter := by
  obtain ⟨tr, s, run, htest⟩ : ∃ tr s,
      (printing .counter (Fin 1)).Exec tr s ∧
        decide ((started tr).length < 2 ^ 32 ∧
          (printedFrom tr).map PerfCounter.count = some 1 ∧
          s.printer.report.count = some 2) = true :=
    Exec.ofRecord (printExec .counter) ⟨initial (Fin 1), .initial⟩
      ([.update (.update 0 5)] ++ List.replicate 9 (.update (.next 0)) ++
        [.print, .next, .next, .update (.update 0 9), .update (.next 0),
          .update (.next 0), .next])
      (fun r => decide ((started r.1).length < 2 ^ 32 ∧
        (printedFrom r.1).map PerfCounter.count = some 1 ∧
        r.2.printer.report.count = some 2)) rfl (by decide)
  obtain ⟨hfew, hfirst, hcount⟩ := of_decide_eq_true htest
  obtain ⟨first, hfound, hone⟩ := Option.map_eq_some_iff.mp hfirst
  exact ⟨tr, s, first, run, hfound, hone, hcount,
    print_brackets run hfew hfound⟩

end Iocore.PerfCounter
