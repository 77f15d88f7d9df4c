import FieldMapping.Document
import FieldMapping.Guide
import FieldMapping.Statement.Json

/-!
# Checking a field mapping

A check reads a text as a field mapping and reports either how many statements it has or what they
are as JSON. `Failure` lists all that can go wrong between the request for a check, or for a page of
the guide, and its answer.
-/

namespace FieldMapping

open Text

/-! ### Failures -/

/-- Why an input cannot be read. -/
inductive ReadError where
  /-- There is no such file. -/
  | missing
  /-- The file is a directory. -/
  | directory
  /-- The path to the file goes on behind a file. -/
  | notDirectory
  /-- The path to the file, or a name in it, is longer than any. -/
  | nameTooLong
  /-- The input is not the UTF-8 form of a text. -/
  | notUtf8
  /-- Anything else, in the words of the system. -/
  | other (message : String)
  deriving DecidableEq, Repr

/-- The wording of a read error. -/
def ReadError.message : ReadError → String
  | missing => "No such file or directory (os error 2)"
  | directory => "Is a directory (os error 21)"
  | notDirectory => "Not a directory (os error 20)"
  | nameTooLong => "File name too long (os error 36)"
  | notUtf8 => "stream did not contain valid UTF-8"
  | other message => message

/-- Why a request is not answered. -/
inductive Failure where
  /-- The text is no field mapping. -/
  | refused (e : SyntaxError)
  /-- The text cannot be read. -/
  | unreadable (e : ReadError)
  /-- The text is empty, or nothing but white space. -/
  | noInput
  /-- The guide has no topic of that name. -/
  | unknownTopic (name : String)
  deriving DecidableEq, Repr

/-- The wording of a failure. -/
def Failure.message : Failure → String
  | refused e => "Parse error: " ++ e.message
  | unreadable e => "IO error: " ++ e.message
  | noInput => "No input provided. Pass SimpleQL source, use --file, or pipe it to stdin."
  | unknownTopic name =>
    "Unknown category: '" ++ name ++ "'\nRun 'simpleql docs' to see available categories."

/-- The text of the guide on the topic with a name. -/
def Guide.page (name : String) : Except Failure String :=
  match Topic.ofName? name with
  | some topic => .ok topic.text
  | none => .error (.unknownTopic name)

/-! ### Checks -/

/-- What a check is to report, and how deep blocks may nest. -/
structure CheckOptions where
  /-- Whether JSON is spread over lines. -/
  pretty : Bool := false
  /-- Whether only the number of statements is reported. -/
  countOnly : Bool := false
  /-- The limit on the nesting of blocks, if not the default. -/
  limit : Option Nat := none
  deriving DecidableEq, Repr

/-- What a check reports. -/
inductive CheckReport where
  /-- The text is a field mapping with that many statements, those in blocks not counted. -/
  | count (statements : Nat)
  /-- The statements of the text as JSON. -/
  | json (text : String)
  deriving DecidableEq, Repr

namespace CheckOptions

/-- Whether a text holds nothing to check. -/
def isEmpty (source : String) : Bool :=
  (trim source.toList).isEmpty

/-- The limit that a check applies. -/
def effectiveLimit (o : CheckOptions) : Nat :=
  o.limit.getD defaultLimit

/-- How a check reports the statements that it has read. -/
def report (o : CheckOptions) (statements : List Statement) : CheckReport :=
  if o.countOnly then .count statements.length
  else if o.pretty then .json (toPrettyJsonText statements)
  else .json (toJsonText statements)

/-- Checks a text. -/
def check (o : CheckOptions) (source : String) : Except Failure CheckReport :=
  if isEmpty source then .error .noInput
  else match parse source o.effectiveLimit with
    | .error e => .error (.refused e)
    | .ok statements => .ok (o.report statements)

/-- The log of a check, which parses unless there is nothing to parse. -/
def events (o : CheckOptions) (source : String) : List LogEvent :=
  if isEmpty source then [] else parseEvents source o.effectiveLimit

/-- A text of white space is answered before it is parsed, whatever the options. -/
theorem check_of_isEmpty {o : CheckOptions} {source : String} (h : isEmpty source = true) :
    o.check source = .error .noInput :=
  if_pos h

end CheckOptions

end FieldMapping
