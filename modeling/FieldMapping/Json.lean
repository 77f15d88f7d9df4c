/-!
# JSON

The JSON values that field mappings are handed on as (texts, arrays and objects) and their two
written forms. One writer produces both, from a `Layout` that says which white space stands between
the tokens: none in the compact form, line breaks and an indentation of two in the pretty one.

Values are written in front of what follows them, so that writing takes one pass over the value.
-/

namespace FieldMapping

/-- A JSON value. The fields of an object stand in the order in which they are written. -/
inductive Json where
  | text (s : String)
  | array (items : List Json)
  | object (fields : List (String × Json))

namespace Json

/-! ### Texts -/

/-- The hexadecimal digit for a number below sixteen. -/
def hexDigit (n : Nat) : Char :=
  if n < 10 then Char.ofNat ('0'.toNat + n) else Char.ofNat ('a'.toNat + (n - 10))

/-- How a character is written in a string literal: quotes and backslashes behind a backslash, the
controls below the space as escapes, all else as it is. -/
def escape (c : Char) : List Char :=
  match c with
  | '"' => ['\\', '"']
  | '\\' => ['\\', '\\']
  | '\n' => ['\\', 'n']
  | '\r' => ['\\', 'r']
  | '\t' => ['\\', 't']
  | '\x08' => ['\\', 'b']
  | '\x0c' => ['\\', 'f']
  | c =>
    if c.toNat < 0x20 then
      ['\\', 'u', '0', '0', hexDigit (c.toNat / 16), hexDigit (c.toNat % 16)]
    else [c]

/-- The string literal for `s`, in front of `rest`. -/
def writeText (s : String) (rest : List Char) : List Char :=
  '"' :: (s.toList.flatMap escape ++ '"' :: rest)

/-! ### Layouts -/

/-- The white space between the tokens of a written value. -/
structure Layout where
  /-- What separates an item from the bracket or comma around it, inside that many brackets. -/
  gap : Nat → List Char
  /-- What stands between the colon of a field and its value. -/
  afterColon : List Char

/-- No white space at all. -/
def Layout.compact : Layout where
  gap _ := []
  afterColon := []

/-- Every item on a line of its own, two spaces further in than the brackets around it. -/
def Layout.pretty : Layout where
  gap depth := '\n' :: List.replicate (2 * depth) ' '
  afterColon := [' ']

/-! ### Writing -/

mutual

/-- The written form of a value inside `depth` brackets, in front of `rest`. -/
def write (l : Layout) (depth : Nat) : Json → List Char → List Char
  | text s, rest => writeText s rest
  | array [], rest => '[' :: ']' :: rest
  | array (v :: vs), rest =>
    '[' :: (l.gap (depth + 1) ++
      write l (depth + 1) v (writeItems l (depth + 1) vs (l.gap depth ++ ']' :: rest)))
  | object [], rest => '{' :: '}' :: rest
  | object ((key, v) :: fs), rest =>
    '{' :: (l.gap (depth + 1) ++
      writeText key (':' :: (l.afterColon ++
        write l (depth + 1) v (writeFields l (depth + 1) fs (l.gap depth ++ '}' :: rest)))))

/-- Further items of an array, each behind a comma, in front of `rest`. -/
def writeItems (l : Layout) (depth : Nat) : List Json → List Char → List Char
  | [], rest => rest
  | v :: vs, rest => ',' :: (l.gap depth ++ write l depth v (writeItems l depth vs rest))

/-- Further fields of an object, each behind a comma, in front of `rest`. -/
def writeFields (l : Layout) (depth : Nat) : List (String × Json) → List Char → List Char
  | [], rest => rest
  | (key, v) :: fs, rest =>
    ',' :: (l.gap depth ++
      writeText key (':' :: (l.afterColon ++ write l depth v (writeFields l depth fs rest))))

end

/-- The compact form of a value. -/
def compact (v : Json) : String :=
  String.ofList (v.write .compact 0 [])

/-- The pretty form of a value. -/
def pretty (v : Json) : String :=
  String.ofList (v.write .pretty 0 [])

@[simp] theorem compact_array_nil : compact (array []) = "[]" := by
  simp [compact, write]

@[simp] theorem pretty_array_nil : pretty (array []) = "[]" := by
  simp [pretty, write]

end Json

end FieldMapping
