/-!
# Tokens

Ten characters structure a field mapping: they are its operators, and everything between two of
them is a value. A token is what a reader meets next: an operator, the first character of a value,
or the end of the input. Two further characters, the quotes, enclose literals in which an operator
is a character like any other.

`Operator.ofChar?_eq_some_iff` says that the operators and their characters determine each other.
-/

namespace FieldMapping

/-! ### Operators -/

/-- A structural character. -/
inductive Operator where
  /-- Stands between a name and its origin, or between a key and its value. -/
  | colon
  /-- Opens a block of statements. -/
  | openBrace
  /-- Closes a block of statements. -/
  | closeBrace
  /-- Separates statements, parameters or arguments. -/
  | comma
  /-- Separates statements, as a comma does. -/
  | newline
  /-- Introduces a processor. -/
  | bar
  /-- Opens a list of parameters or arguments. -/
  | openParen
  /-- Closes a list of parameters or arguments. -/
  | closeParen
  /-- Opens the index of an indexed reference. -/
  | openBracket
  /-- Closes the index of an indexed reference. -/
  | closeBracket
  deriving DecidableEq, Repr

namespace Operator

/-- The character that stands for an operator. -/
def char : Operator → Char
  | colon => ':'
  | openBrace => '{'
  | closeBrace => '}'
  | comma => ','
  | newline => '\n'
  | bar => '|'
  | openParen => '('
  | closeParen => ')'
  | openBracket => '['
  | closeBracket => ']'

/-- The operator that `c` stands for, if it is one. -/
def ofChar? (c : Char) : Option Operator :=
  match c with
  | ':' => some colon
  | '{' => some openBrace
  | '}' => some closeBrace
  | ',' => some comma
  | '\n' => some newline
  | '|' => some bar
  | '(' => some openParen
  | ')' => some closeParen
  | '[' => some openBracket
  | ']' => some closeBracket
  | _ => none

@[simp] theorem ofChar?_char (o : Operator) : ofChar? o.char = some o := by
  cases o <;> rfl

/-- An operator and its character determine each other. -/
theorem ofChar?_eq_some_iff {c : Char} {o : Operator} : ofChar? c = some o ↔ c = o.char := by
  constructor
  · intro h
    unfold ofChar? at h
    split at h <;> cases h <;> rfl
  · rintro rfl
    exact ofChar?_char o

end Operator

/-- Whether `c` is one of the ten structural characters. -/
def isOperator (c : Char) : Bool :=
  (Operator.ofChar? c).isSome

@[simp] theorem isOperator_char (o : Operator) : isOperator o.char = true := by
  simp [isOperator]

/-- The operator characters are exactly the characters of the operators. -/
theorem isOperator_eq_true_iff {c : Char} : isOperator c = true ↔ ∃ o : Operator, c = o.char := by
  simp [isOperator, Option.isSome_iff_exists, Operator.ofChar?_eq_some_iff]

/-! ### Quotes -/

/-- Whether `c` encloses quoted literals. -/
def isQuote (c : Char) : Bool :=
  c == '"' || c == '\''

/-- No quote is an operator. -/
theorem isOperator_of_isQuote {c : Char} (h : isQuote c = true) : isOperator c = false := by
  simp only [isQuote, Bool.or_eq_true, beq_iff_eq] at h
  rcases h with rfl | rfl <;> rfl

/-! ### Tokens -/

/-- What a reader meets next. -/
inductive Token where
  /-- A structural character. -/
  | operator (o : Operator)
  /-- The start of a value, with its first character. -/
  | text (c : Char)
  /-- Nothing: the input is used up. -/
  | endOfInput
  deriving DecidableEq, Repr

namespace Token

/-- The token that starts with `c`. -/
def ofChar (c : Char) : Token :=
  match Operator.ofChar? c with
  | some o => operator o
  | none => text c

/-- The token at the start of `s`. -/
def ofHead : List Char → Token
  | [] => endOfInput
  | c :: _ => ofChar c

@[simp] theorem ofHead_nil : ofHead [] = endOfInput := rfl

@[simp] theorem ofHead_cons (c : Char) (s : List Char) : ofHead (c :: s) = ofChar c := rfl

@[simp] theorem ofChar_char (o : Operator) : ofChar o.char = operator o := by
  simp [ofChar]

/-- Whether a token may stand between two statements. -/
def isSeparator (t : Token) : Bool :=
  t = operator .comma || t = operator .newline

/-- The text that names a token in a message: the character itself, a line feed as an escape. -/
def display : Token → String
  | operator .newline => "\\n"
  | operator o => o.char.toString
  | text c => c.toString
  | endOfInput => "end of input"

end Token

end FieldMapping
