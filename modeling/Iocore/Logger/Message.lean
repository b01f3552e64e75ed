import Iocore.Defs
import Iocore.Foundation.Lines
import Mathlib.Data.Finset.Insert

/-!
# From a log statement to the writer

A `LogMessage` collects what is streamed into it and is delivered when it is
destroyed.  The `Logger` read `~/.bblogrc` when it was created: the lines
there name the paths whose debug and verbose messages are delivered.

A string is the list of its characters.  What `strftime` wrote is given with
each message, and a writer is the list of the calls it received.
-/

namespace Iocore

open Foundation

namespace Logger

abbrev Text := List Char

inductive Priority where
  | default
  | highPriority
  | lowPriority
  deriving DecidableEq, Repr

inductive LogType where
  | verbose
  | debug
  | info
  | warning
  | error
  deriving DecidableEq, Repr

def LogType.code : LogType → Char
  | .verbose => 'v'
  | .debug => 'd'
  | .info => 'i'
  | .warning => 'w'
  | .error => 'e'

end Logger

/-- The paths to deliver, and the `Append` calls of the writer, if there is one. -/
structure Logger where
  logrc : Finset Logger.Text
  writer : Option (List (Logger.Text × Logger.Priority))

namespace Logger

/-- `getline`, which fails at the end of the file. -/
def getline (f : Text) : Option (Text × Text) :=
  if f = [] then none else some (firstLine '\n' f, afterLine '\n' f)

theorem getline_eq_some {f line rest : Text} (h : getline f = some (line, rest)) :
    f ≠ [] ∧ line = firstLine '\n' f ∧ rest = afterLine '\n' f := by
  unfold getline at h
  split_ifs at h with hempty
  cases h
  exact ⟨hempty, rfl, rfl⟩

def loadLines (f : Text) (logrc : Finset Text) : Finset Text :=
  match _h : getline f with
  | none => logrc
  | some (line, rest) =>
      if line = [] ∨ line.head? = some '#' then loadLines rest logrc
      else loadLines rest (insert line logrc)
  termination_by f.length
  decreasing_by
    all_goals
      obtain ⟨hempty, -, rfl⟩ := getline_eq_some _h
      exact length_afterLine_lt hempty

def loadLogrc : Option Text → Finset Text
  | none => ∅
  | some f => loadLines f ∅

def construct (file : Option Text) : Logger := ⟨loadLogrc file, none⟩

def attachWriter (logger : Logger) : Logger := { logger with writer := some [] }

def append (logger : Logger) (type : LogType) (msg : Text) : Code Logger := do
  let p := if type.code.toNat &&& LogType.error.code.toNat ≠ 0
    then Priority.highPriority else .default
  let calls ← deref logger.writer
  return { logger with writer := some (calls ++ [(msg, p)]) }

structure LogMessage where
  type : LogType
  path : Text
  msg : List Text
  deriving DecidableEq, Repr

def LogMessage.construct (type : LogType) (path : Text) : LogMessage :=
  ⟨type, path, []⟩

def LogMessage.stream (m : LogMessage) (t : Text) : LogMessage :=
  { m with msg := m.msg ++ [t] }

def LogMessage.destroy (m : LogMessage) (timestamp : Text) (logger : Logger) :
    Code Logger :=
  if (m.type = .debug ∨ m.type = .verbose) ∧ m.path ∉ logger.logrc then
    return logger
  else
    let tmp := m.type.code :: [' '] ++ timestamp ++ [' ', '['] ++ m.path ++
      [']', ' ']
    let tmp := m.msg.foldl (· ++ ·) tmp
    logger.append m.type tmp

/-! ## The file -/

def Listed (file : Option Text) (path : Text) : Prop :=
  path ≠ [] ∧ path.head? ≠ some '#' ∧ ∃ f, file = some f ∧ IsLine '\n' f path

theorem mem_loadLines (f : Text) (logrc : Finset Text) (path : Text) :
    path ∈ loadLines f logrc ↔ path ∈ logrc ∨
      path ≠ [] ∧ path.head? ≠ some '#' ∧ IsLine '\n' f path := by
  induction f, logrc using loadLines.induct with
  | case1 f logrc hline =>
      have hempty : f = [] := by
        by_contra hne
        simp [getline, hne] at hline
      rw [loadLines, hline, hempty, isLine_nil]
      simp only [iff_self_or]
      exact fun h => absurd h.2.2 h.1
  | case2 f logrc line rest hline hskip ih =>
      obtain ⟨-, hfirst, hrest⟩ := getline_eq_some hline
      rw [loadLines, hline]
      simp only [if_pos hskip, ih]
      refine or_congr_right ⟨?_, ?_⟩
      · rintro ⟨hne, hcomment, hmem⟩
        exact ⟨hne, hcomment, (isLine_iff hne).mpr (.inr (hrest ▸ hmem))⟩
      · rintro ⟨hne, hcomment, hmem⟩
        refine ⟨hne, hcomment, hrest ▸ ((isLine_iff hne).mp hmem).resolve_left ?_⟩
        rintro rfl
        rw [← hfirst] at hne hcomment
        exact hskip.elim hne hcomment
  | case3 f logrc line rest hline hkeep ih =>
      obtain ⟨-, hfirst, hrest⟩ := getline_eq_some hline
      rw [not_or] at hkeep
      rw [loadLines, hline]
      simp only [if_neg (not_or.mpr hkeep), ih, Finset.mem_insert]
      constructor
      · rintro ((rfl | hmem) | ⟨hne, hcomment, hmem⟩)
        · exact .inr ⟨hkeep.1, hkeep.2, (isLine_iff hkeep.1).mpr (.inl hfirst)⟩
        · exact .inl hmem
        · exact .inr ⟨hne, hcomment,
            (isLine_iff hne).mpr (.inr (hrest ▸ hmem))⟩
      · rintro (hmem | ⟨hne, hcomment, hmem⟩)
        · exact .inl (.inr hmem)
        · rcases (isLine_iff hne).mp hmem with h | h
          · exact .inl (.inl (h.trans hfirst.symm))
          · exact .inr ⟨hne, hcomment, hrest ▸ h⟩

theorem mem_loadLogrc {file : Option Text} {path : Text} :
    path ∈ loadLogrc file ↔ Listed file path := by
  cases file with
  | none => simp [loadLogrc, Listed]
  | some f => simp [loadLogrc, Listed, mem_loadLines]

instance (file : Option Text) (path : Text) : Decidable (Listed file path) :=
  decidable_of_iff _ mem_loadLogrc

/-! ## The messages -/

structure Statement where
  type : LogType
  path : Text
  pieces : List Text
  timestamp : Text
  deriving DecidableEq, Repr

namespace Statement

def message (e : Statement) : LogMessage :=
  e.pieces.foldl LogMessage.stream (.construct e.type e.path)

def Delivered (file : Option Text) (e : Statement) : Prop :=
  e.type ≠ .debug ∧ e.type ≠ .verbose ∨ Listed file e.path

instance (file : Option Text) (e : Statement) : Decidable (e.Delivered file) :=
  inferInstanceAs (Decidable (_ ∨ _))

/-- The level letter, the timestamp, the path in brackets, and the pieces. -/
def text (e : Statement) : Text :=
  e.type.code :: ' ' :: e.timestamp ++ ' ' :: '[' :: e.path ++ ']' :: ' ' ::
    e.pieces.flatten

def priority (e : Statement) : Priority :=
  if e.type = .error then .highPriority else .default

end Statement

def run (logger : Logger) (entries : List Statement) : Code Logger :=
  entries.foldlM (fun logger e => e.message.destroy e.timestamp logger) logger

theorem foldl_stream (pieces : List Text) (m : LogMessage) :
    pieces.foldl LogMessage.stream m = { m with msg := m.msg ++ pieces } := by
  induction pieces generalizing m with
  | nil => simp
  | cons piece pieces ih => simp [ih, LogMessage.stream]

theorem foldl_append (pieces : List Text) (tmp : Text) :
    pieces.foldl (· ++ ·) tmp = tmp ++ pieces.flatten := by
  induction pieces generalizing tmp with
  | nil => simp
  | cons piece pieces ih => simp [ih]

/-- Every level letter has a bit in common with the one of `LEVEL_ERROR`. -/
theorem append_eq (logger : Logger) (type : LogType) (msg : Text)
    {calls : List (Text × Priority)} (hwriter : logger.writer = some calls) :
    logger.append type msg =
      .ok { logger with writer := some (calls ++ [(msg, .highPriority)]) } := by
  have hshared : type.code.toNat &&& LogType.error.code.toNat ≠ 0 := by
    cases type <;> decide
  simp [append, hshared, hwriter, pure, Except.pure]

theorem destroy_eq {file : Option Text} {logger : Logger} (e : Statement)
    (hlogrc : logger.logrc = loadLogrc file) {calls : List (Text × Priority)}
    (hwriter : logger.writer = some calls) :
    e.message.destroy e.timestamp logger = .ok { logger with
      writer := some (calls ++
        if e.Delivered file then [(e.text, .highPriority)] else []) } := by
  have hmessage : e.message = ⟨e.type, e.path, e.pieces⟩ := by
    simp [Statement.message, foldl_stream, LogMessage.construct]
  have hmem : e.path ∈ logger.logrc ↔ Listed file e.path := by
    rw [hlogrc, mem_loadLogrc]
  rw [hmessage, LogMessage.destroy]
  by_cases hdelivered : e.Delivered file
  · have hkept : ¬ ((e.type = .debug ∨ e.type = .verbose) ∧
        e.path ∉ logger.logrc) := by
      rintro ⟨htype, hunlisted⟩
      rcases hdelivered with ⟨hdebug, hverbose⟩ | hlisted
      · exact htype.elim hdebug hverbose
      · exact hunlisted (hmem.mpr hlisted)
    rw [if_neg hkept, if_pos hdelivered, append_eq _ _ _ hwriter]
    simp [foldl_append, Statement.text]
  · have hdropped : (e.type = .debug ∨ e.type = .verbose) ∧
        e.path ∉ logger.logrc := by
      rw [Statement.Delivered, not_or, not_and_or, not_not, not_not]
        at hdelivered
      exact ⟨hdelivered.1, hdelivered.2 ∘ hmem.mp⟩
    rw [if_pos hdropped, if_neg hdelivered, List.append_nil, ← hwriter]
    rfl

theorem run_eq (file : Option Text) {logger : Logger} (entries : List Statement)
    (hlogrc : logger.logrc = loadLogrc file) {calls : List (Text × Priority)}
    (hwriter : logger.writer = some calls) :
    logger.run entries = .ok { logger with
      writer := some (calls ++ (entries.filter (·.Delivered file)).map
        fun e => (e.text, .highPriority)) } := by
  induction entries generalizing logger calls with
  | nil => simp [run, ← hwriter, pure, Except.pure]
  | cons e entries ih =>
      rw [run, List.foldlM_cons, destroy_eq e hlogrc hwriter, Code.ok_bind]
      have hrest := fun calls =>
        ih (show { logger with writer := some calls }.logrc = _ from hlogrc) rfl
      refine (hrest _).trans ?_
      by_cases hdelivered : e.Delivered file <;> simp [hdelivered]

/--
The law of the log: with a writer attached, the writer is called for exactly
the delivered messages, once each and in order, with the text and the priority
of the message.  It holds precisely when all delivered messages are errors.
-/
theorem run_lawful_iff (file : Option Text) (entries : List Statement) :
    (∃ logger, (construct file).attachWriter.run entries = .ok logger ∧
      logger.writer = some ((entries.filter (·.Delivered file)).map
        fun e => (e.text, e.priority))) ↔
      ∀ e ∈ entries, e.Delivered file → e.type = .error := by
  rw [run_eq file entries rfl rfl]
  simp only [Except.ok.injEq, exists_eq_left', List.nil_append,
    Option.some.injEq, List.map_inj_left, List.mem_filter, Prod.mk.injEq,
    true_and, decide_eq_true_eq, and_imp]
  refine forall₃_congr fun e _ _ => ?_
  by_cases herror : e.type = .error <;> simp [Statement.priority, herror]

theorem run_not_lawful :
    ¬ ∀ (file : Option Text) (entries : List Statement),
      ∃ logger, (construct file).attachWriter.run entries = .ok logger ∧
        logger.writer = some ((entries.filter (·.Delivered file)).map
          fun e => (e.text, e.priority)) := by
  intro lawful
  obtain ⟨logger, hrun, hcalls⟩ := lawful none [⟨.info, ['/', 'q'], [['x']], []⟩]
  cases hrun
  revert hcalls
  decide

end Logger

end Iocore
