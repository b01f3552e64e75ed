import Iocore.Thread.Model

/-!
# Time counters

`TimeCounter<T>` keeps the milliseconds that each of 32 tags has used.
`ClockIn` reads the clock twice: the time up to the first reading goes to the
tag, and the second reading is what the next call counts from.  Nothing is
charged twice, so a percentage is of no less than the time that was charged;
but what passes between the two readings is charged to no tag.

What is printed is kept as the report, without the texts around the numbers.
-/

namespace Iocore

structure TimeCounter where
  startms : UInt64
  refms : UInt64
  timer : Fin 32 → UInt32

namespace TimeCounter

open Foundation Foundation.System

def elapsedInMilliSec (nowInMilliSec startInMilliSec : UInt64) : UInt64 :=
  Thread.elapsed nowInMilliSec startInMilliSec

def clockIn (counter : TimeCounter) (t : ℕ) (first second : UInt64) :
    Code TimeCounter :=
  if h : t < 32 then
    let i : Fin 32 := ⟨t, h⟩
    .ok { counter with
      timer := Function.update counter.timer i
        (counter.timer i + (elapsedInMilliSec first counter.refms).toUInt32)
      refms := second }
  else .error .aborted

/-! ## `operator<<` -/

structure Line where
  tag : Fin 32
  ms : UInt32
  percent : UInt64
  deriving DecidableEq, Repr

structure Report where
  elapsedMs : UInt64
  lines : List Line
  deriving DecidableEq, Repr

/-- The product is one of 32 bits, the quotient one of 64. -/
def percentage (timer : UInt32) (elapsedMs : UInt64) : Code UInt64 :=
  if elapsedMs = 0 then .error .undefinedBehaviour
  else .ok ((timer * 100).toUInt64 / elapsedMs)

def printTag (v : TimeCounter) (elapsedMs : UInt64) (lines : List Line)
    (i : Fin 32) : Code (List Line) :=
  if v.timer i = 0 then .ok lines
  else do
    let percent ← percentage (v.timer i) elapsedMs
    return lines ++ [⟨i, v.timer i, percent⟩]

def print (v : TimeCounter) (now : UInt64) : Code Report := do
  let elapsedMs := elapsedInMilliSec now v.startms
  let lines ← (List.finRange 32).foldlM (printTag v elapsedMs) []
  return ⟨elapsedMs, lines⟩

/-! ## Calls under a clock that does not go back -/

structure State where
  counter : TimeCounter
  clock : UInt64

/-- A call of `ClockIn`, with what its two readings of the clock give. -/
structure ClockIn where
  t : ℕ
  first : UInt64
  second : UInt64
  deriving DecidableEq, Repr

def exec (s : State) (call : ClockIn) : Code State :=
  if s.clock ≤ call.first ∧ call.first ≤ call.second then do
    let counter ← s.counter.clockIn call.t call.first call.second
    return ⟨counter, call.second⟩
  else .error .blocked

def initial (startms r0 : UInt64) : State := ⟨⟨startms, r0, fun _ => 0⟩, r0⟩

def system (startms r0 : UInt64) : System State ClockIn :=
  .ofFunction (fun s => s = initial startms r0) exec

def charged (counter : TimeCounter) : ℕ := total UInt32.toNat counter.timer

theorem elapsedInMilliSec_toNat (now start : UInt64) :
    (elapsedInMilliSec now start).toNat = now.toNat - start.toNat := by
  unfold elapsedInMilliSec Thread.elapsed
  split
  case isTrue h =>
    exact UInt64.toNat_sub_of_le _ _ (UInt64.le_of_lt h)
  case isFalse h =>
    have hle : now.toNat ≤ start.toNat :=
      UInt64.le_iff_toNat_le.mp (UInt64.not_lt.mp h)
    simp [Nat.sub_eq_zero_of_le hle]

structure Step (s : State) (call : ClockIn) (s' : State) : Prop where
  before : s.clock.toNat ≤ call.first.toNat
  between : call.first.toNat ≤ call.second.toNat
  clock : s'.clock = call.second
  startms : s'.counter.startms = s.counter.startms
  refms : s'.counter.refms = call.second
  timer : ∃ i, s'.counter.timer = Function.update s.counter.timer i
    (s.counter.timer i +
      (elapsedInMilliSec call.first s.counter.refms).toUInt32)

theorem step_of_exec {s s' : State} {call : ClockIn}
    (h : exec s call = .ok s') : Step s call s' := by
  unfold exec at h
  split at h
  case isFalse => cases h
  case isTrue hclock =>
    unfold clockIn at h
    split at h
    case isFalse => cases h
    case isTrue ht =>
      cases h
      exact ⟨UInt64.le_iff_toNat_le.mp hclock.1,
        UInt64.le_iff_toNat_le.mp hclock.2, rfl, rfl, rfl, ⟨call.t, ht⟩, rfl⟩

namespace Step

variable {s s' : State} {call : ClockIn}

private theorem charge (h : Step s call s') :
    ∃ timer, timer ≤ s.counter.charged ∧
      s'.counter.charged + timer = s.counter.charged +
        (timer + (call.first.toNat - s.counter.refms.toNat) % 2 ^ 32) %
          2 ^ 32 := by
  obtain ⟨i, htimer⟩ := h.timer
  refine ⟨(s.counter.timer i).toNat, ?_, ?_⟩
  · exact le_total UInt32.toNat s.counter.timer i
  · rw [← elapsedInMilliSec_toNat, ← UInt64.toNat_toUInt32,
      ← UInt32.toNat_add, charged, htimer]
    exact total_update UInt32.toNat s.counter.timer i _

theorem charged_le (h : Step s call s') : s'.counter.charged ≤
    s.counter.charged + (call.first.toNat - s.counter.refms.toNat) := by
  obtain ⟨timer, hle, hcharge⟩ := h.charge
  have hwrap := Nat.mod_le
    (timer + (call.first.toNat - s.counter.refms.toNat) % 2 ^ 32) (2 ^ 32)
  have hcut := Nat.mod_le (call.first.toNat - s.counter.refms.toNat) (2 ^ 32)
  omega

/-- As long as all that was charged fits into 32 bits, no timer wraps. -/
theorem charged_eq (h : Step s call s')
    (fits : s.counter.charged + (call.first.toNat - s.counter.refms.toNat) <
      2 ^ 32) : s'.counter.charged =
    s.counter.charged + (call.first.toNat - s.counter.refms.toNat) := by
  obtain ⟨timer, hle, hcharge⟩ := h.charge
  rw [Nat.mod_eq_of_lt (by omega : _ < 2 ^ 32), Nat.mod_eq_of_lt (by omega)]
    at hcharge
  omega

end Step

/-! ## What was charged lies before the reference point -/

structure Behind (startms r0 : UInt64) (s : State) : Prop where
  startms : s.counter.startms = startms
  charged : s.counter.charged + r0.toNat ≤ s.counter.refms.toNat
  clock : s.clock = s.counter.refms

variable {startms r0 : UInt64} {tr : History State ClockIn} {s : State}

theorem charged_initial : (initial startms r0).counter.charged = 0 := by
  simp [charged, total, initial]

theorem behind_inductive : (system startms r0).Inductive (Behind startms r0) where
  init := by
    rintro s rfl
    refine ⟨rfl, ?_, rfl⟩
    rw [charged_initial, Nat.zero_add]
    rfl
  step {s call s'} behind hstep := by
    have h : Step s call s' := step_of_exec hstep
    refine ⟨h.startms.trans behind.startms, ?_, h.clock.trans h.refms.symm⟩
    have hcharged := h.charged_le
    have hbehind := behind.charged
    have hbefore := h.before
    have hbetween := h.between
    rw [behind.clock] at hbefore
    rw [h.refms]
    omega

/-! ## A print is well defined -/

def line (v : TimeCounter) (elapsedMs : UInt64) (i : Fin 32) : Option Line :=
  if v.timer i = 0 then none
  else some ⟨i, v.timer i, (v.timer i * 100).toUInt64 / elapsedMs⟩

theorem printTags_eq {v : TimeCounter} {elapsedMs : UInt64}
    (divisor : ∀ i, v.timer i ≠ 0 → elapsedMs ≠ 0) (rounds : List (Fin 32))
    (lines : List Line) : rounds.foldlM (printTag v elapsedMs) lines =
      .ok (lines ++ rounds.filterMap (line v elapsedMs)) := by
  induction rounds generalizing lines with
  | nil => simp; rfl
  | cons i rounds ih =>
      rw [List.foldlM_cons, printTag]
      by_cases hzero : v.timer i = 0
      · rw [if_pos hzero, Code.ok_bind, ih]
        simp [line, hzero]
      · rw [if_neg hzero, percentage, if_neg (divisor i hzero)]
        simp [line, hzero, ih]

theorem percents_mul_le (v : TimeCounter) (elapsedMs : UInt64)
    (rounds : List (Fin 32)) :
    ((rounds.filterMap (line v elapsedMs)).map fun l => l.percent.toNat).sum *
        elapsedMs.toNat ≤
      100 * (rounds.map fun i => (v.timer i).toNat).sum := by
  induction rounds with
  | nil => simp
  | cons i rounds ih =>
      rw [filterMap_cons_toList, List.map_append, List.sum_append, Nat.add_mul,
        List.map_cons, List.sum_cons, Nat.mul_add]
      refine Nat.add_le_add ?_ ih
      unfold line
      split
      case isTrue => simp
      case isFalse =>
        have hwrap : (v.timer i * 100).toNat ≤ 100 * (v.timer i).toNat := by
          rw [UInt32.toNat_mul, Nat.mul_comm 100]
          exact Nat.mod_le _ _
        have hdiv : ((v.timer i * 100).toUInt64 / elapsedMs).toNat *
            elapsedMs.toNat ≤ (v.timer i * 100).toNat := by
          rw [UInt64.toNat_div, UInt32.toNat_toUInt64]
          exact Nat.div_mul_le_self _ _
        simpa using hdiv.trans hwrap

theorem print_of_charged_le {v : TimeCounter} {now : UInt64}
    (h : v.charged ≤ (elapsedInMilliSec now v.startms).toNat) :
    (∀ i, v.timer i ≠ 0 → elapsedInMilliSec now v.startms ≠ 0) ∧
      ∃ report, v.print now = .ok report ∧
        (report.lines.map fun l => l.percent.toNat).sum ≤ 100 := by
  have divisor (i : Fin 32) (hi : v.timer i ≠ 0) :
      elapsedInMilliSec now v.startms ≠ 0 := by
    intro hzero
    have hle := (le_total UInt32.toNat v.timer i).trans h
    rw [hzero] at hle
    exact hi (UInt32.toNat_inj.mp (Nat.le_zero.mp hle))
  refine ⟨divisor, _, by rw [print, printTags_eq divisor]; rfl, ?_⟩
  have hsum := percents_mul_le v (elapsedInMilliSec now v.startms)
    (List.finRange 32)
  have htotal : ((List.finRange 32).map fun i => (v.timer i).toNat).sum =
      v.charged := (Fin.sum_univ_def _).symm
  rw [htotal] at hsum
  have hbound := hsum.trans (Nat.mul_le_mul_left 100 h)
  rw [List.nil_append]
  by_cases hzero : elapsedInMilliSec now v.startms = 0
  · have hnone : (List.finRange 32).filterMap
        (line v (elapsedInMilliSec now v.startms)) = [] := by
      refine List.filterMap_eq_nil_iff.mpr fun i _ => ?_
      exact if_pos (by_contra fun hi => divisor i hi hzero)
    simp [hnone]
  · have hpos : 0 < (elapsedInMilliSec now v.startms).toNat :=
      Nat.pos_of_ne_zero fun h => hzero (UInt64.toNat_inj.mp h)
    exact Nat.le_of_mul_le_mul_right hbound hpos

theorem print_wellDefined (ordered : startms ≤ r0)
    (run : (system startms r0).Exec tr s) {now : UInt64} (later : s.clock ≤ now) :
    (∀ i, s.counter.timer i ≠ 0 →
      elapsedInMilliSec now s.counter.startms ≠ 0) ∧
    ∃ report, s.counter.print now = .ok report ∧
      (report.lines.map fun l => l.percent.toNat).sum ≤ 100 := by
  have behind := behind_inductive.exec run
  apply print_of_charged_le
  have hcharged := behind.charged
  have hordered := UInt64.le_iff_toNat_le.mp ordered
  have hlater := UInt64.le_iff_toNat_le.mp later
  rw [behind.clock] at hlater
  rw [elapsedInMilliSec_toNat, behind.startms]
  omega

theorem print_wellDefined_nine :
    ∃ tr s, (system 1000 1000).Exec tr s ∧
      (s.counter.print 1009).map Report.lines =
        .ok [⟨0, 3, 33⟩, ⟨31, 4, 44⟩] ∧
      ((∀ i, s.counter.timer i ≠ 0 →
        elapsedInMilliSec 1009 s.counter.startms ≠ 0) ∧
      ∃ report, s.counter.print 1009 = .ok report ∧
        (report.lines.map fun l => l.percent.toNat).sum ≤ 100) := by
  obtain ⟨tr, s, run, htest⟩ : ∃ tr s, (system 1000 1000).Exec tr s ∧
      decide (s.clock ≤ 1009 ∧ (s.counter.print 1009).map Report.lines =
        .ok [⟨0, 3, 33⟩, ⟨31, 4, 44⟩]) = true :=
    Exec.ofRecord exec (initial 1000 1000)
      [⟨5, 1000, 1000⟩, ⟨0, 1003, 1004⟩, ⟨31, 1008, 1008⟩]
      (fun r => decide (r.2.clock ≤ 1009 ∧
        (r.2.counter.print 1009).map Report.lines =
          .ok [⟨0, 3, 33⟩, ⟨31, 4, 44⟩])) rfl (by decide)
  obtain ⟨hclock, hlines⟩ := of_decide_eq_true htest
  exact ⟨tr, s, run, hlines, print_wellDefined (by decide) run hclock⟩

/-! ## What is charged to no tag -/

/-- As long as no timer can have wrapped, all the time is on the timers. -/
def Conserves (r0 : UInt64) (s : State) : Prop :=
  s.counter.refms.toNat - r0.toNat < 2 ^ 32 →
    s.counter.charged = s.counter.refms.toNat - r0.toNat

def ReadsOnce (r0 : UInt64) (_ : State) (call : ClockIn) : Prop :=
  call.second.toNat - r0.toNat < 2 ^ 32 → call.first = call.second

theorem Behind.conserves_iff {s' : State} {call : ClockIn}
    (behind : Behind startms r0 s) (before : Conserves r0 s)
    (h : Step s call s') : Conserves r0 s' ↔ ReadsOnce r0 s call := by
  have hbehind := behind.charged
  have hfirst := h.before
  have hsecond := h.between
  rw [behind.clock] at hfirst
  unfold Conserves at before ⊢
  rw [h.refms]
  constructor
  · intro after fits
    have hafter := after fits
    have hle := h.charged_le
    apply UInt64.toNat_inj.mp
    omega
  · intro once fits
    have hsame := congrArg UInt64.toNat (once fits)
    have hbefore := before (by omega)
    rw [h.charged_eq (by omega)]
    omega

theorem clockIn_conserves_iff (run : (system startms r0).Exec tr s) :
    (∀ y ∈ visited tr s, Conserves r0 y) ↔ Meets (ReadsOnce r0) tr := by
  refine run.safe_iff_meets_of_step_iff behind_inductive ?_ ?_
  · rintro s rfl _
    rw [charged_initial]
    exact (Nat.sub_self _).symm
  · intro s call s' behind before hstep
    exact behind.conserves_iff before (step_of_exec hstep)

theorem clockIn_conserves_three :
    ∃ tr s, (system 0 10).Exec tr s ∧ Meets (ReadsOnce 10) tr ∧
      s.counter.charged = 6 ∧
      ((∀ y ∈ visited tr s, Conserves 10 y) ↔ Meets (ReadsOnce 10) tr) := by
  obtain ⟨tr, s, run, htest⟩ : ∃ tr s, (system 0 10).Exec tr s ∧
      decide ((∀ p ∈ tr, p.2.first = p.2.second) ∧ s.counter.charged = 6) =
        true :=
    Exec.ofRecord exec (initial 0 10) [⟨3, 12, 12⟩, ⟨4, 12, 12⟩, ⟨3, 16, 16⟩]
      (fun r => decide ((∀ p ∈ r.1, p.2.first = p.2.second) ∧
        r.2.counter.charged = 6)) rfl (by decide)
  obtain ⟨hsame, hcharged⟩ := of_decide_eq_true htest
  exact ⟨tr, s, run, fun p hp _ => hsame p hp, hcharged,
    clockIn_conserves_iff run⟩

theorem clockIn_loses_millisecond :
    ∃ tr s, (system 0 0).Exec tr s ∧ s.counter.refms = 2 ∧
      s.counter.charged = 1 ∧ ¬ Conserves 0 s := by
  obtain ⟨tr, s, run, htest⟩ : ∃ tr s, (system 0 0).Exec tr s ∧
      decide (s.counter.refms = 2 ∧ s.counter.charged = 1) = true :=
    Exec.ofRecord exec (initial 0 0) [⟨0, 1, 2⟩]
      (fun r => decide (r.2.counter.refms = 2 ∧ r.2.counter.charged = 1)) rfl
      (by decide)
  obtain ⟨hrefms, hcharged⟩ := of_decide_eq_true htest
  refine ⟨tr, s, run, hrefms, hcharged, fun h => ?_⟩
  rw [Conserves, hrefms, hcharged] at h
  exact absurd (h (by decide)) (by decide)

end TimeCounter

end Iocore
