/-!
# Lines and columns

A line feed ends a line. `splitLines` cuts a text at its line feeds, `lastLine` is what follows the
last of them, and `Position.after s` is the line and column at which a reader who has read `s`
stands. `lines` is the form for display: a text that ends in a line feed has no further line
after it, and the carriage return of a CRLF line end is not shown.
-/

namespace FieldMapping.Text

/-- The pieces of `s` between its line feeds, of which there is always one more. -/
def splitLines : List Char → List (List Char)
  | [] => [[]]
  | c :: s =>
    if c = '\n' then [] :: splitLines s
    else match splitLines s with
      | [] => [[c]]
      | l :: ls => (c :: l) :: ls

@[simp] theorem splitLines_nil : splitLines [] = [[]] := rfl

@[simp] theorem splitLines_newline (s : List Char) :
    splitLines ('\n' :: s) = [] :: splitLines s := rfl

/-- Splitting at line feeds gives at least one piece, even of the empty text. -/
theorem splitLines_ne_nil (s : List Char) : splitLines s ≠ [] := by
  cases s with
  | nil => simp
  | cons c s =>
    rw [splitLines]
    split
    · simp
    · split <;> simp

/-- `l` without a carriage return at its end. -/
def dropReturn (l : List Char) : List Char :=
  if l.getLast? = some '\r' then l.dropLast else l

/-- The lines of `s` as they are displayed. -/
def lines (s : List Char) : List (List Char) :=
  let pieces := splitLines s
  let unended := (pieces.getLast?.toList).filter (· != [])
  pieces.dropLast.map dropReturn ++ unended

@[simp] theorem lines_nil : lines [] = [] := rfl

/-- What follows the last line feed of `s`. -/
def lastLine (s : List Char) : List Char :=
  (s.reverse.takeWhile (· != '\n')).reverse

@[simp] theorem lastLine_nil : lastLine [] = [] := rfl

/-! ### Positions -/

/-- A place in a text as a reader counts it: lines from one, and characters of the line from one. -/
structure Position where
  line : Nat
  column : Nat
  deriving DecidableEq, Repr

/-- The position right behind `s`. -/
def Position.after (s : List Char) : Position where
  line := s.count '\n' + 1
  column := (lastLine s).length + 1

@[simp] theorem Position.after_nil : Position.after [] = ⟨1, 1⟩ := rfl

end FieldMapping.Text
