import Iocore.Logger.ConsoleLines

/-!
# Reading the console back

A line of the log has the letter of its level, the time, the path in brackets
and the message.  Whoever splits the lines at the brackets gets back what every
thread logged, in its order, whichever way the calls of the threads contend.
`strftime` writes no bracket; the paths and the messages have to keep to it.
-/

namespace Iocore.Logger

open Foundation

structure Record where
  type : LogType
  path : Text
  msg : Text
  deriving DecidableEq, Repr

def readType (c : Char) : Option LogType :=
  [.verbose, .debug, .info, .warning, .error].find? fun type => type.code = c

def readRecord : Text → Option Record
  | [] => none
  | c :: rest =>
      let bracket := afterLine '[' rest
      (readType c).map fun type =>
        ⟨type, firstLine ']' bracket, (afterLine ']' bracket).tail⟩

namespace Statement

def record (e : Statement) : Record := ⟨e.type, e.path, e.pieces.flatten⟩

/-- Nothing in the message is taken for the end of a part of the line. -/
structure Legible (e : Statement) : Prop where
  timestamp : '[' ∉ e.timestamp
  path : ']' ∉ e.path
  line : '\n' ∉ e.text

instance (e : Statement) : Decidable e.Legible :=
  decidable_of_iff ('[' ∉ e.timestamp ∧ ']' ∉ e.path ∧ '\n' ∉ e.text)
    ⟨fun h => ⟨h.1, h.2.1, h.2.2⟩, fun h => ⟨h.timestamp, h.path, h.line⟩⟩

end Statement

theorem readType_code (type : LogType) : readType type.code = some type := by
  cases type <;> rfl

theorem readRecord_text {e : Statement} (legible : e.Legible) :
    readRecord e.text = some e.record := by
  have hstamp : '[' ∉ ' ' :: e.timestamp ++ [' '] := by
    simpa using legible.timestamp
  have htext : e.text = e.type.code :: ((' ' :: e.timestamp ++ [' ']) ++
      '[' :: (e.path ++ ']' :: ' ' :: e.pieces.flatten)) := by
    simp [Statement.text]
  rw [htext, readRecord]
  simp only [firstLine_append hstamp, firstLine_append legible.path,
    readType_code, Option.map_some, List.tail_cons]
  rfl

end Iocore.Logger

namespace Iocore.ConsoleLogWriter.Stream

open Foundation Foundation.System Logger

variable {Tid : Type} [DecidableEq Tid]

def delivers (file : Option Text) (i : Tid) (_ : State Tid) :
    Action Tid → Option Statement
  | .log j e => if j = i ∧ e.Delivered file then some e else none
  | .next _ => none

def delivered (file : Option Text) (i : Tid)
    (tr : History (State Tid) (Action Tid)) : List Statement :=
  (observed (delivers file i) tr).reverse

variable {file : Option Text} {i : Tid} {s : State Tid}
  {tr : History (State Tid) (Action Tid)}

theorem logged_eq_map :
    logged file i tr = (delivered file i tr).reverse.map Statement.text := by
  rw [logged, delivered, List.reverse_reverse, observed, observed,
    List.map_filterMap]
  refine List.filterMap_congr fun p _ => ?_
  cases p.2 with
  | log j e =>
      simp only [logs, delivers]
      split <;> rfl
  | next j => rfl

def recordsBy (i : Tid) (done : List (Tid × Option Record)) :
    List (Option Record) :=
  done.filterMap fun p => if p.1 = i then some p.2 else none

theorem recordsBy_map (done : List (Tid × Text)) :
    recordsBy i (done.map fun p => (p.1, readRecord p.2)) =
      (linesBy i done).map readRecord := by
  rw [recordsBy, linesBy, List.filterMap_map, List.map_filterMap]
  refine List.filterMap_congr fun p _ => ?_
  rw [Function.comp_apply]
  split <;> rfl

end Iocore.ConsoleLogWriter.Stream
