import FieldMapping.SyntaxError

/-!
# The log of a parse

A parse reports what it does as a sequence of `LogEvent`s: its start, every statement it meets, and
how it ended. The start and the end are events of level `debug`, the statements of level `trace`; a
reader of the log who asks for a `Verbosity` sees the levels up to it.

What is written for an event is not settled here. Who writes the log chooses a `LogStyle`, which may
add to an event whatever else is known, such as the time. `LogStyle.plain` adds nothing.
-/

namespace FieldMapping

/-- The importance of an event. -/
inductive LogLevel where
  | debug
  | trace
  deriving DecidableEq, Repr

/-- Something that happens during a parse. -/
inductive LogEvent where
  /-- A document of that many bytes is about to be parsed. -/
  | started (bytes : Nat)
  /-- A statement starts, inside that many blocks. -/
  | statement (name : String) (depth : Nat)
  /-- The document was parsed into that many statements, those in blocks not counted. -/
  | finished (statements : Nat)
  /-- The document was refused. -/
  | failed (error : SyntaxError)
  deriving DecidableEq, Repr

namespace LogEvent

/-- The level of an event. -/
def level : LogEvent → LogLevel
  | statement _ _ => .trace
  | _ => .debug

/-- What happened, without the particulars. -/
def message : LogEvent → String
  | started _ => "parsing document"
  | statement _ _ => "statement"
  | finished _ => "parsed document"
  | failed _ => "parse failed"

/-- The particulars of an event as they are written: names and texts. -/
def fields : LogEvent → List (String × String)
  | started bytes => [("len", toString bytes)]
  | statement name depth => [("name", name), ("depth", toString depth)]
  | finished statements => [("statements", toString statements)]
  | failed e =>
    [("line", toString e.position.line), ("column", toString e.position.column),
      ("error", e.cause.message)]

end LogEvent

/-- How much of the log is shown. -/
inductive Verbosity where
  | quiet
  | debug
  | trace
  deriving DecidableEq, Repr

namespace Verbosity

/-- The verbosity asked for by giving the verbose flag `n` times. -/
def ofCount (n : Nat) : Verbosity :=
  match n with
  | 0 => quiet
  | 1 => debug
  | _ => trace

/-- Whether events of a level are shown. -/
def shows : Verbosity → LogLevel → Bool
  | quiet, _ => false
  | debug, level => level = .debug
  | trace, _ => true

end Verbosity

/-! ### Log lines -/

/-- The part of the program that the log lines name. -/
def logTarget : String := "simpleql::parser"

/-- The word for a level in a log line. -/
def LogLevel.word : LogLevel → String
  | debug => "DEBUG"
  | trace => "TRACE"

/-- How a log is written: the text for an event that so many shown ones stand in front of. Equal
events need not give equal texts, since time goes by between them. -/
abbrev LogStyle : Type :=
  Nat → LogEvent → String

/-- An event as a line of its own: its level, where it comes from, what happened, and its
particulars. -/
def LogStyle.plain : LogStyle := fun _ e =>
  e.level.word ++ " " ++ logTarget ++ ": " ++ e.message ++
    String.join (e.fields.map fun (name, text) => " " ++ name ++ "=" ++ text) ++ "\n"

/-- The text of those events of a log that a verbosity shows. -/
def logText (style : LogStyle) (verbosity : Verbosity) (events : List LogEvent) : String :=
  String.join ((events.filter (verbosity.shows ·.level)).mapIdx style)

/-- A quiet log is empty, however it is written. -/
@[simp] theorem logText_quiet (style : LogStyle) (events : List LogEvent) :
    logText style .quiet events = "" := by
  have h : events.filter (Verbosity.quiet.shows ·.level) = [] :=
    List.filter_eq_nil_iff.2 fun e _ => by simp [Verbosity.shows]
  rw [logText, h]
  rfl

end FieldMapping
