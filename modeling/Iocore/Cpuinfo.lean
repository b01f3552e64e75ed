import Iocore.Foundation.Patterns
import Iocore.Logger.Message

/-!
# The frequency of the processor

`System::GetHz` takes the frequency from `/proc/cpuinfo` at its first call and
keeps it.  The loop does not end at the first line that matches, so with several
processors the last one counts.

Two things are arguments: `boost::regex_match`, of which only what is documented
is used, that it finds a match of the whole line if there is one; and what `atof`
makes of the digits, with the product that is stored as an integer, as these are
computed in doubles.
-/

namespace Iocore.Cpuinfo

open Foundation Logger

def isBlank (c : Char) : Bool := c = ' ' || c = '\t'

def isNumeral (c : Char) : Bool := c.isDigit || c = '.'

/-- `[ \t]*cpu MHz[ \t]*:[ \t]*([0-9.]+)[ \t]*` -/
def ex : List (Piece Char) :=
  [.many isBlank, .word ['c', 'p', 'u', ' ', 'M', 'H', 'z'], .many isBlank,
    .word [':'], .many isBlank, .group isNumeral, .many isBlank]

variable (regexMatch : List (Piece Char) → Text → Option (List Text))
  (hzOf : Text → UInt64)

def readLine (line : Text) (hz : UInt64) : Code UInt64 :=
  match regexMatch ex line with
  | none => .ok hz
  | some found => do
      invariant (found.length = 2)
      let MHz ← deref found[1]?
      return hzOf MHz

def readLines (f : Text) (hz : UInt64) : Code UInt64 :=
  match _h : getline f with
  | none => .ok hz
  | some (line, rest) => do
      let hz ← readLine regexMatch hzOf line hz
      readLines rest hz
  termination_by f.length
  decreasing_by
    obtain ⟨hempty, -, rfl⟩ := getline_eq_some _h
    exact length_afterLine_lt hempty

/-- `GetHz`, with the file unless it fails to open, and the static `hz`. -/
def getHz (file : Option Text) (hz : UInt64) : Code UInt64 :=
  if hz ≠ 0 then .ok hz
  else do
    let hz ← match file with
      | none => .ok hz
      | some f => readLines regexMatch hzOf f hz
    invariant (hz ≠ 0)
    return hz

def calls : List (Option Text) → UInt64 → Code (List UInt64 × UInt64)
  | [], hz => .ok ([], hz)
  | file :: files, hz => do
      let hz ← getHz regexMatch hzOf file hz
      let (returned, last) ← calls files hz
      return (hz :: returned, last)

/-! ## The lines that match -/

def CpuMHz (line MHz : Text) : Prop :=
  ∃ indent middle space trailing,
    line = indent ++ ['c', 'p', 'u', ' ', 'M', 'H', 'z'] ++ middle ++ [':'] ++
      space ++ MHz ++ trailing ∧
    (∀ blanks ∈ [indent, middle, space, trailing],
      ∀ c ∈ blanks, isBlank c = true) ∧
    MHz ≠ [] ∧ ∀ c ∈ MHz, isNumeral c = true

theorem not_numeral_of_blank {c : Char} (h : isBlank c = true) :
    isNumeral c = false := by
  rcases Bool.or_eq_true_iff.mp h with hc | hc <;>
    rw [of_decide_eq_true hc] <;> rfl

theorem ex_separated : Separated ex := by
  have hc : isBlank 'c' = false := rfl
  have hcolon : isBlank ':' = false := rfl
  refine ⟨fun x hx hstart => ?_, fun x hx hstart => ?_, fun x hx hstart => ?_,
    fun x hx hstart => ?_, fun x _ hstart => hstart, trivial⟩
  · rw [show x = 'c' from hstart, hc] at hx
    cases hx
  · rw [show x = ':' from hstart, hcolon] at hx
    cases hx
  · change isNumeral x = true at hstart
    rw [not_numeral_of_blank hx] at hstart
    cases hstart
  · rcases hstart with hblank | hend
    · rw [not_numeral_of_blank hblank] at hx
      cases hx
    · exact hend

theorem matches_ex {line : Text} {groups : List Text} :
    Matches ex line groups ↔ ∃ MHz, groups = [MHz] ∧ CpuMHz line MHz := by
  unfold ex
  simp only [matches_many, matches_word, matches_group, matches_nil]
  constructor
  · rintro ⟨indent, _, rfl, hindent, _, rfl, middle, _, rfl, hmiddle, _, rfl,
      space, _, rfl, hspace, MHz, _, _, rfl, rfl, hne, hMHz, trailing, _, rfl,
      htrailing, rfl, rfl⟩
    refine ⟨MHz, rfl, indent, middle, space, trailing, by simp, ?_, hne, hMHz⟩
    simp only [List.forall_mem_cons]
    exact ⟨hindent, hmiddle, hspace, htrailing,
      fun _ h => absurd h List.not_mem_nil⟩
  · rintro ⟨MHz, rfl, indent, middle, space, trailing, rfl, hblanks, hne, hMHz⟩
    simp only [List.forall_mem_cons] at hblanks
    obtain ⟨hindent, hmiddle, hspace, htrailing, -⟩ := hblanks
    exact ⟨indent, _, by simp only [List.append_assoc], hindent, _, rfl,
      middle, _, rfl, hmiddle, _, rfl, space, _, rfl, hspace, MHz, _, _, rfl,
      rfl, hne, hMHz, trailing, [], (List.append_nil _).symm, htrailing, rfl, rfl⟩

theorem CpuMHz.unique {line MHz MHz' : Text} (h : CpuMHz line MHz)
    (h' : CpuMHz line MHz') : MHz = MHz' := by
  have hgroups := (matches_ex.mpr ⟨MHz, rfl, h⟩).unique ex_separated
    (matches_ex.mpr ⟨MHz', rfl, h'⟩)
  exact (List.cons.inj hgroups).1

/-! ## What the loop finds -/

variable {regexMatch hzOf}

theorem readLine_of_cpuMHz (finds : Finds regexMatch) {line MHz : Text}
    (h : CpuMHz line MHz) (hz : UInt64) :
    readLine regexMatch hzOf line hz = .ok (hzOf MHz) := by
  have hmatch : regexMatch ex line = some [line, MHz] :=
    (finds.eq_some_iff ex_separated).mpr
      ⟨[MHz], rfl, matches_ex.mpr ⟨MHz, rfl, h⟩⟩
  rw [readLine, hmatch]
  rfl

theorem readLine_of_not (finds : Finds regexMatch) {line : Text}
    (h : ∀ MHz, ¬ CpuMHz line MHz) (hz : UInt64) :
    readLine regexMatch hzOf line hz = .ok hz := by
  have hmatch : regexMatch ex line = none := by
    by_contra hne
    obtain ⟨found, hfound⟩ := Option.ne_none_iff_exists'.mp hne
    obtain ⟨groups, -, hgroups⟩ := finds.sound hfound
    obtain ⟨MHz, -, hline⟩ := matches_ex.mp hgroups
    exact h MHz hline
  rw [readLine, hmatch]

/-- The last of the lines that gives a frequency gives this one. -/
def LastMHz (hzOf : Text → UInt64) (lines : List Text) (hz : UInt64) : Prop :=
  ∃ before line after MHz, lines = before ++ line :: after ∧
    CpuMHz line MHz ∧ hzOf MHz = hz ∧ ∀ l ∈ after, ∀ MHz, ¬ CpuMHz l MHz

variable (hzOf) in
theorem readLines_cases (finds : Finds regexMatch) (f : Text) (hz : UInt64) :
    ∃ hz', readLines regexMatch hzOf f hz = .ok hz' ∧
      (LastMHz hzOf (linesOf '\n' f) hz' ∨
        hz' = hz ∧ ∀ l ∈ linesOf '\n' f, ∀ MHz, ¬ CpuMHz l MHz) := by
  induction f, hz using readLines.induct with
  | case1 f hz hline =>
      have hempty : f = [] := by
        by_contra hne
        rw [getline, if_neg hne] at hline
        cases hline
      refine ⟨hz, by rw [readLines, hline], .inr ⟨rfl, ?_⟩⟩
      rw [hempty, linesOf, dif_pos rfl]
      exact fun _ h => absurd h List.not_mem_nil
  | case2 f hz line rest hline ih =>
      obtain ⟨hne, hfirst, hrest⟩ := getline_eq_some hline
      have hlines : linesOf '\n' f = line :: linesOf '\n' rest := by
        rw [linesOf, dif_neg hne, hfirst, hrest]
      have hread (hz₁ : UInt64) (h : readLine regexMatch hzOf line hz = .ok hz₁) :
          readLines regexMatch hzOf f hz = readLines regexMatch hzOf rest hz₁ := by
        rw [readLines, hline]
        dsimp only
        rw [h, Code.ok_bind]
      rw [hlines]
      by_cases hgives : ∃ MHz, CpuMHz line MHz
      · obtain ⟨MHz, hMHz⟩ := hgives
        rw [hread _ (readLine_of_cpuMHz finds hMHz hz)]
        obtain ⟨hz', hloop, hlast | ⟨rfl, hnone⟩⟩ := ih (hzOf MHz)
        · obtain ⟨before, l, after, found, hsplit, hlast⟩ := hlast
          exact ⟨hz', hloop, .inl ⟨line :: before, l, after, found,
            congrArg (line :: ·) hsplit, hlast⟩⟩
        · exact ⟨_, hloop, .inl ⟨[], line, _, MHz, rfl, hMHz, rfl, hnone⟩⟩
      · rw [not_exists] at hgives
        rw [hread hz (readLine_of_not finds hgives hz)]
        obtain ⟨hz', hloop, hlast | ⟨rfl, hnone⟩⟩ := ih hz
        · obtain ⟨before, l, after, found, hsplit, hlast⟩ := hlast
          exact ⟨hz', hloop, .inl ⟨line :: before, l, after, found,
            congrArg (line :: ·) hsplit, hlast⟩⟩
        · exact ⟨_, hloop,
            .inr ⟨rfl, List.forall_mem_cons.mpr ⟨hgives, hnone⟩⟩⟩

theorem LastMHz.unique {lines : List Text} {hz hz' : UInt64}
    (h : LastMHz hzOf lines hz) (h' : LastMHz hzOf lines hz') : hz = hz' := by
  obtain ⟨before, line, after, MHz, rfl, hMHz, rfl, hafter⟩ := h
  obtain ⟨before', line', after', MHz', hlines, hMHz', rfl, hafter'⟩ := h'
  rcases List.append_eq_append_iff.mp hlines with
    ⟨between, -, htail⟩ | ⟨between, -, htail⟩
  · cases between with
    | nil =>
        obtain ⟨rfl, rfl⟩ := List.cons.inj htail
        rw [hMHz.unique hMHz']
    | cons l between =>
        obtain ⟨rfl, rfl⟩ := List.cons.inj htail
        exact absurd hMHz' (hafter line' (by simp) MHz')
  · cases between with
    | nil =>
        obtain ⟨rfl, rfl⟩ := List.cons.inj htail
        rw [hMHz.unique hMHz']
    | cons l between =>
        obtain ⟨rfl, rfl⟩ := List.cons.inj htail
        exact absurd hMHz (hafter' line (by simp) MHz)

variable (hzOf) in
theorem getHz_cases (finds : Finds regexMatch) (file : Option Text) :
    (∃ f hz, file = some f ∧ LastMHz hzOf (linesOf '\n' f) hz ∧ hz ≠ 0 ∧
      getHz regexMatch hzOf file 0 = .ok hz) ∨
    (∀ f, file = some f → ∀ hz, LastMHz hzOf (linesOf '\n' f) hz → hz = 0) ∧
      getHz regexMatch hzOf file 0 = .error .aborted := by
  cases file with
  | none => exact .inr ⟨nofun, rfl⟩
  | some f =>
      obtain ⟨hz, hread, hcases⟩ := readLines_cases hzOf finds f 0
      have hget : getHz regexMatch hzOf (some f) 0 = do
          invariant (hz ≠ 0)
          return hz := by
        simp only [getHz, ne_eq, not_true_eq_false, if_false, hread, Code.ok_bind]
      by_cases hzero : hz = 0
      · refine .inr ⟨?_, by rw [hget, hzero]; rfl⟩
        rintro _ ⟨rfl⟩ hz' hlast'
        rcases hcases with hlast | ⟨-, hnone⟩
        · rw [hlast'.unique hlast, hzero]
        · obtain ⟨before, line, after, MHz, hlines, hMHz, -⟩ := hlast'
          exact absurd hMHz (hnone line (by rw [hlines]; simp) MHz)
      · have hlast := hcases.resolve_right fun h => hzero h.1
        refine .inl ⟨f, hz, rfl, hlast, hzero, ?_⟩
        rw [hget]
        simp [invariant, hzero, pure, Except.pure]

theorem calls_cached {hz : UInt64} (h : hz ≠ 0) (files : List (Option Text)) :
    calls regexMatch hzOf files hz = .ok (List.replicate files.length hz, hz) := by
  induction files with
  | nil => rfl
  | cons file files ih =>
      rw [calls, getHz, if_pos h, Code.ok_bind, ih, Code.ok_bind]
      rfl

/--
The first call gives what the last line in the file that has a frequency says,
and aborts if there is none or it says zero.  All later calls give the same,
whatever is in the file by then.
-/
theorem getHz_reads_last
    {regexMatch : List (Piece Char) → Text → Option (List Text)}
    (finds : Finds regexMatch) (hzOf : Text → UInt64) (file : Option Text) :
    (∀ hz, getHz regexMatch hzOf file 0 = .ok hz ↔
      hz ≠ 0 ∧ ∃ f, file = some f ∧ LastMHz hzOf (linesOf '\n' f) hz) ∧
    (∀ stop, getHz regexMatch hzOf file 0 = .error stop → stop = .aborted) ∧
    (∀ hz, getHz regexMatch hzOf file 0 = .ok hz → ∀ later,
      calls regexMatch hzOf (file :: later) 0 =
        .ok (List.replicate (later.length + 1) hz, hz)) := by
  refine ⟨fun hz => ?_, fun stop hstop => ?_, fun hz hget later => ?_⟩
  · rcases getHz_cases hzOf finds file with
      ⟨f, hz', rfl, hlast, hne, hget⟩ | ⟨hzero, hget⟩
    · rw [hget, Except.ok.injEq]
      constructor
      · rintro rfl
        exact ⟨hne, f, rfl, hlast⟩
      · rintro ⟨-, _, ⟨rfl⟩, hlast'⟩
        exact hlast.unique hlast'
    · rw [hget]
      constructor
      · intro h
        cases h
      · rintro ⟨hne, f, hfile, hlast⟩
        exact absurd (hzero f hfile hz hlast) hne
  · rcases getHz_cases hzOf finds file with
      ⟨f, hz', -, -, -, hget⟩ | ⟨-, hget⟩
    · cases hget.symm.trans hstop
    · cases hget.symm.trans hstop
      rfl
  · have hne : hz ≠ 0 := by
      rcases getHz_cases hzOf finds file with
        ⟨f, hz', -, -, hne, hget'⟩ | ⟨-, hget'⟩
      · cases hget'.symm.trans hget
        exact hne
      · cases hget'.symm.trans hget
    rw [calls, hget, Code.ok_bind, calls_cached hne, Code.ok_bind]
    rfl

theorem getHz_reads_second :
    calls (fun pieces line => (firstMatch pieces line).map (line :: ·))
      (fun MHz => UInt64.ofNat (Nat.ofDigitChars 10 MHz 0 * 1000 * 1000))
      [some (["cpu MHz\t\t: 2400".toList, "flags\t\t: fpu".toList,
        "cpu MHz\t\t: 800".toList].flatMap (· ++ ['\n'])), none] 0 =
      .ok ([800000000, 800000000], 800000000) := by
  obtain ⟨hfirst, -, hlater⟩ := getHz_reads_last finds_firstMatch
    (fun MHz => UInt64.ofNat (Nat.ofDigitChars 10 MHz 0 * 1000 * 1000))
    (some (["cpu MHz\t\t: 2400".toList, "flags\t\t: fpu".toList,
      "cpu MHz\t\t: 800".toList].flatMap (· ++ ['\n'])))
  refine hlater _ ((hfirst _).mpr ⟨by decide, _, rfl, ?_⟩) [none]
  rw [linesOf_flatMap (by decide)]
  exact ⟨["cpu MHz\t\t: 2400".toList, "flags\t\t: fpu".toList], _, [],
    "800".toList, rfl, ⟨[], ['\t', '\t'], [' '], [], rfl, by simp [isBlank],
      List.cons_ne_nil _ _, List.all_eq_true.mp rfl⟩, rfl,
    fun _ h => absurd h List.not_mem_nil⟩

end Iocore.Cpuinfo
