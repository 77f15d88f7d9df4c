import FieldMapping.Scan

/-!
# Cursors

A `Cursor` is a place in a text from which tokens and values are taken one at a time. It remembers
where the token or value that was taken last starts, the place that a complaint about it names. A
look ahead leaves the cursor as it is, and an act of reading that fails leaves it where the reading
stopped.
-/

namespace FieldMapping

open Text

/-- A place in a text. -/
structure Cursor where
  /-- The whole text. -/
  source : List Char
  /-- What is unread of it. -/
  rest : List Char
  /-- What was unread where the last token or value starts. -/
  mark : List Char
  deriving DecidableEq

namespace Cursor

/-- The cursor at the start of a text. -/
def start (source : String) : Cursor :=
  ⟨source.toList, source.toList, source.toList⟩

/-- The number of bytes before a cursor. -/
def position (c : Cursor) : Nat :=
  byteSize c.source - byteSize c.rest

@[simp] theorem position_start (source : String) : (start source).position = 0 :=
  Nat.sub_self _

/-! ### Looking ahead -/

/-- The character `n` places behind the cursor. -/
def peekChar (c : Cursor) (n : Nat) : Option Char :=
  c.rest[n]?

/-- The first character behind the cursor that is not blank. -/
def peekSignificant (c : Cursor) : Option Char :=
  (Scan.significant c.rest).head?

/-- The next token. -/
def peekToken (c : Cursor) : Token :=
  Scan.peekToken c.rest

/-! ### Taking -/

/-- The cursor behind an act of reading that started at `mark`, with what the act gave. -/
def advance {α : Type} (c : Cursor) (mark : List Char) (taken : Except Fault (α × List Char)) :
    Except SyntaxError α × Cursor :=
  match taken with
  | .ok (a, rest) => (.ok a, { c with rest, mark })
  | .error f => (.error (f.locate c.source), { c with rest := f.rest, mark })

/-- Takes the next token, if it is an operator. -/
def nextToken (c : Cursor) : Token × Cursor :=
  let (token, rest) := Scan.nextToken c.rest
  (token, { c with rest, mark := Scan.significant c.rest })

/-- Takes the next value. -/
def value (c : Cursor) : Except SyntaxError String × Cursor :=
  c.advance (trimStart c.rest) (Scan.value c.rest)

/-- Takes the next quoted literal. -/
def quoted (c : Cursor) : Except SyntaxError String × Cursor :=
  c.advance (Scan.significant c.rest) (Scan.quoted c.rest)

/-- A look at the next token sees what taking it gives. -/
theorem nextToken_fst (c : Cursor) : c.nextToken.1 = c.peekToken :=
  Scan.nextToken_fst c.rest

/-! ### Complaints -/

/-- The report that `token` was met where the last token or value starts. -/
def unexpected (c : Cursor) (token : Token) : SyntaxError :=
  (Fault.mk (.unexpected token.display) c.mark c.rest).locate c.source

/-- The report on something that went wrong at the cursor. -/
def error (c : Cursor) (cause : Cause) : SyntaxError :=
  (Fault.here cause c.rest).locate c.source

end Cursor

end FieldMapping
