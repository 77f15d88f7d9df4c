import FieldMapping.Text.Bytes
import FieldMapping.Text.Lines
import FieldMapping.Text.Space

/-!
# Syntax errors

A text that is no field mapping is refused with a `SyntaxError`: the **cause** of the refusal, the
place where it arose, and an excerpt of the text before that place with a caret under its last
character. `SyntaxError.ofOffset` builds the whole report from the cause, the text and a byte
offset, and `SyntaxError.message` is the report as it is printed:

    Unexpected token '}' at line 1, column 14:
     order: Order{}
                  ^
-/

namespace FieldMapping

open Text

/-- Why a text is refused. -/
inductive Cause where
  /-- An operator, a value or the end of the input where the grammar has something else. -/
  | unexpected (found : String)
  /-- The input ends behind the colon of a statement. -/
  | missingValue
  /-- A quoted literal runs to the end of the input. -/
  | unclosedQuote (quote : Char)
  /-- A block lies deeper than the limit allows. -/
  | tooDeep (limit : Nat)
  deriving DecidableEq, Repr

/-- The wording of a cause. -/
def Cause.message : Cause → String
  | unexpected found => "Unexpected token '" ++ found ++ "'"
  | missingValue => "Expected a value"
  | unclosedQuote quote => "Unterminated string, missing closing " ++ quote.toString
  | tooDeep limit => "Nesting deeper than " ++ toString limit ++ " blocks"

/-- The report on a refused text. -/
structure SyntaxError where
  /-- Why the text is refused. -/
  cause : Cause
  /-- The place in the text, in bytes. -/
  offset : Nat
  /-- The place in the text, as a reader counts it. -/
  position : Position
  /-- The text that leads up to the place, and the character there. -/
  window : String
  /-- A caret, indented to stand under the last character of the window. -/
  marker : String
  deriving DecidableEq, Repr

namespace SyntaxError

/-! ### The excerpt -/

/-- How many characters a window is cut from: fifty, and the one at the place. -/
def windowSize : Nat := 51

/-- What is shown of a text at a place with `before` before it and `after` behind it: the end of
`before` and the first character of `after`, without white space at either end. At the end of the
text, where `after` is empty, all characters of the window come from `before`. -/
def windowOf (before after : List Char) : List Char :=
  let shown := before ++ after.take 1
  trim (shown.drop (shown.length - windowSize))

/-- The caret under the last character of the last line of `window`. -/
def markerOf (window : List Char) : List Char :=
  List.replicate ((lastLine window).length - 1) ' ' ++ ['^']

/-! ### The report -/

/-- The report on `source` at a byte offset. An offset inside a character stands for the start of
that character, one past the end for the end. -/
def ofOffset (cause : Cause) (source : List Char) (offset : Nat) : SyntaxError :=
  let before := takeBytes offset source
  let window := windowOf before (source.drop before.length)
  { cause
    offset := byteSize before
    position := .after before
    window := String.ofList window
    marker := String.ofList (markerOf window) }

@[simp] theorem cause_ofOffset (cause : Cause) (source : List Char) (offset : Nat) :
    (ofOffset cause source offset).cause = cause := rfl

/-- The excerpt as it is printed: every line of the window indented by one space, and below it the
marker. A window without lines is shown as one empty line. -/
def excerpt (e : SyntaxError) : String :=
  let shown := match lines e.window.toList with
    | [] => [[]]
    | ls => ls
  String.join (shown.map fun l => " " ++ String.ofList l ++ "\n") ++ " " ++ e.marker

/-- The whole report as it is printed. -/
def message (e : SyntaxError) : String :=
  e.cause.message ++ " at line " ++ toString e.position.line ++ ", column " ++
    toString e.position.column ++ ":\n" ++ e.excerpt

end SyntaxError

end FieldMapping
