import FieldMapping.Proofs.Statement.Shape
import Mathlib.Data.List.Forall2

/-!
# Layouts

The written form of a list of statements is a sequence of lexemes (`Statement.lexemes`), and a
layout writes each of them behind white space of its choice (`Lexeme.Writes`, `Layout`):

* an atom stands behind any white space, line feeds included;
* an operator and a literal stand behind blanks, and behind a comma a literal may stand on a new
  line as well;
* a plain value that starts with a quote stands on a new line, where the quote opens no literal;
* between two statements stands any mix of commas and white space. It has a comma or a line feed in
  it, unless a parenthesis or a brace closes right before it or the list ends there.
-/

namespace FieldMapping

open Text

/-! ### Lexemes -/

/-- White space, line feeds included. -/
def Spaces (w : List Char) : Prop :=
  ∀ c ∈ w, isSpace c = true

/-- White space without line feeds. -/
def Blanks (w : List Char) : Prop :=
  ∀ c ∈ w, isBlank c = true

/-- What a written statement consists of. -/
inductive Lexeme where
  /-- An atom. -/
  | word (text : String)
  /-- A quoted literal. -/
  | literal (text : String) (behindComma : Bool)
  /-- An atom that starts with a quote and is no literal. -/
  | onNewLine (text : String)
  /-- An operator. -/
  | sign (o : Operator)
  /-- What stands between two statements, or behind the last of a list. -/
  | separator (required : Bool)

/-- The texts of a lexeme, with the white space before it. -/
def Lexeme.Writes : Lexeme → List Char → Prop
  | word a, u => IsAtom a ∧ ∃ w, Spaces w ∧ u = w ++ a.toList
  | literal a behindComma, u => IsLiteral a ∧
      ∃ w, (Blanks w ∨ behindComma = true ∧ Spaces w) ∧ u = w ++ a.toList
  | onNewLine a, u => IsAtom a ∧ ∃ w, Spaces w ∧ '\n' ∈ w ∧ u = w ++ a.toList
  | sign o, u => ∃ w, Blanks w ∧ u = w ++ [o.char]
  | separator required, u => (∀ c ∈ u, Walk.isSeparating c = true) ∧
      (required = true → ∃ c ∈ u, c = ',' ∨ c = '\n')

/-- A text that writes a sequence of lexemes one after the other; white space may follow. -/
inductive Layout : List Lexeme → List Char → Prop
  | nil {w : List Char} : Spaces w → Layout [] w
  | cons {x : Lexeme} {xs : List Lexeme} {u s : List Char} : x.Writes u → Layout xs s →
      Layout (x :: xs) (u ++ s)

/-! ### The lexemes of statements -/

/-- The lexeme of a plain value. -/
def Lexeme.ofPlain (a : String) : Lexeme :=
  if StartsWithQuote a then .onNewLine a else .word a

/-- The lexemes of a value. -/
def Value.lexemes (behindComma : Bool) : Value → List Lexeme
  | .scalar a => [if IsLiteral a then .literal a behindComma else .ofPlain a]
  | .indexed base index =>
    [.ofPlain base, .sign .openBracket, .word index, .sign .closeBracket]

/-- The lexemes of a parameter. -/
def Param.lexemes (p : Param) : List Lexeme :=
  .word p.key :: p.value.elim [] fun v => .sign .colon :: v.lexemes false

/-- Items with commas between them, and the parenthesis that closes their list. -/
def Lexeme.items : List (List Lexeme) → List Lexeme
  | [] => [.sign .closeParen]
  | [x] => x ++ [.sign .closeParen]
  | x :: y :: xs => x ++ .sign .comma :: items (y :: xs)

/-- The lexemes of a processor. -/
def Processor.lexemes (p : Processor) : List Lexeme :=
  (if p.name = "" then [] else [.word p.name]) ++
    match p.args with
    | [] => []
    | v :: vs => .sign .openParen :: Lexeme.items (v.lexemes false :: vs.map (·.lexemes true))

/-- The lexemes of a pipeline. -/
def Processor.pipelineLexemes (ps : List Processor) : List Lexeme :=
  ps.flatMap fun p => .sign .bar :: p.lexemes

/-- The lexemes of an origin. -/
def Origin.lexemes : Origin → List Lexeme
  | .field name => [.word name]
  | .type ref => .word ref.name ::
      (ref.params.elim [] fun ps => .sign .openParen :: Lexeme.items (ps.map Param.lexemes)) ++
        ref.processors.elim [] Processor.pipelineLexemes

/-- How the written form of something ends. -/
inductive Ending where
  /-- With an atom. -/
  | word
  /-- With a parenthesis or a brace. -/
  | bracket
  /-- With the bar of a nameless processor. -/
  | bar
  deriving DecidableEq

/-- How a processor ends. -/
def Processor.ending (p : Processor) : Ending :=
  if p.args = [] then if p.name = "" then .bar else .word else .bracket

/-- How an origin ends. -/
def Origin.ending : Origin → Ending
  | .field _ => .word
  | .type ref =>
    match ref.processors with
    | some ps => (ps.getLast?.map Processor.ending).getD .word
    | none => if ref.params.isSome then .bracket else .word

/-- What stands behind a statement: nothing behind a nameless processor, else a separator. -/
def Ending.separator (last : Bool) : Ending → List Lexeme
  | .word => [.separator (!last)]
  | .bracket => [.separator false]
  | .bar => []

/-- The lexemes of the name and the origin of a statement. -/
def Statement.headLexemes (name : String) (origin : Option Origin) : List Lexeme :=
  .word name :: origin.elim [] fun o => .sign .colon :: o.lexemes

/-- The lexemes of a list of statements. -/
def Statement.lexemes : List Statement → List Lexeme :=
  fold [] fun name origin block rest =>
    headLexemes name origin ++
      match block with
      | none => (origin.elim .word Origin.ending).separator rest.isEmpty ++ rest
      | some inner => .sign .openBrace :: inner ++ .sign .closeBrace :: .separator false :: rest

@[simp] theorem Statement.lexemes_nil : Statement.lexemes [] = [] := rfl

/-- The lexemes of a statement without a block end with what separates it from the next one. -/
theorem Statement.lexemes_cons_none (name : String) (origin : Option Origin)
    (ts : List Statement) : lexemes (⟨name, origin, none⟩ :: ts) = headLexemes name origin ++
      ((origin.elim .word Origin.ending).separator (lexemes ts).isEmpty ++ lexemes ts) := by
  simp [lexemes]

/-- The lexemes of a block stand between its braces, and nothing has to separate it from what
follows. -/
theorem Statement.lexemes_cons_some (name : String) (origin : Option Origin)
    (inner ts : List Statement) : lexemes (⟨name, origin, some inner⟩ :: ts) =
      headLexemes name origin ++ .sign .openBrace ::
        (lexemes inner ++ .sign .closeBrace :: .separator false :: lexemes ts) := by
  simp [lexemes]

/-! ### Taking a layout apart -/

variable {x : Lexeme} {xs : List Lexeme} {s : List Char}

/-- Behind the last lexeme stands white space. -/
theorem layout_nil_iff : Layout [] s ↔ Spaces s :=
  ⟨fun h => by cases h; assumption, .nil⟩

/-- A layout starts with what writes its first lexeme. -/
theorem layout_cons_iff : Layout (x :: xs) s ↔ ∃ u t, x.Writes u ∧ Layout xs t ∧ s = u ++ t := by
  constructor
  · intro h
    cases h with
    | cons hx hxs => exact ⟨_, _, hx, hxs, rfl⟩
  · rintro ⟨u, t, hx, hxs, rfl⟩
    exact .cons hx hxs

/-! ### Checking layouts -/

/-- What stands in front of an end of a text is found by its length. -/
theorem exists_eq_append_iff {P : List Char → Prop} {u v : List Char} :
    (∃ w, P w ∧ u = w ++ v) ↔ v <:+ u ∧ P (u.take (u.length - v.length)) := by
  constructor
  · rintro ⟨w, hw, rfl⟩
    exact ⟨List.suffix_append w v, by simpa using hw⟩
  · rintro ⟨hv, hw⟩
    exact ⟨_, hw, (List.suffix_iff_eq_append.1 hv).symm⟩

instance : DecidablePred Spaces := fun _ => decidable_of_iff _ List.all_eq_true

instance : DecidablePred Blanks := fun _ => decidable_of_iff _ List.all_eq_true

/-- A text that is white space in front of `v`, of a kind that can be decided. -/
instance decidableExistsEqAppend {P : List Char → Prop} [DecidablePred P] (u v : List Char) :
    Decidable (∃ w, P w ∧ u = w ++ v) :=
  decidable_of_iff' _ exists_eq_append_iff

instance : ∀ (x : Lexeme) (u : List Char), Decidable (x.Writes u)
  | .word a, u => inferInstanceAs (Decidable (IsAtom a ∧ ∃ w, Spaces w ∧ u = w ++ a.toList))
  | .literal a behindComma, u => inferInstanceAs (Decidable (IsLiteral a ∧
      ∃ w, (Blanks w ∨ behindComma = true ∧ Spaces w) ∧ u = w ++ a.toList))
  | .onNewLine a, u => decidable_of_iff
      (IsAtom a ∧ ∃ w, (Spaces w ∧ '\n' ∈ w) ∧ u = w ++ a.toList) (by simp only [and_assoc]; rfl)
  | .sign o, u => inferInstanceAs (Decidable (∃ w, Blanks w ∧ u = w ++ [o.char]))
  | .separator required, u => decidable_of_iff
      (u.all Walk.isSeparating = true ∧
        (required = true → u.any (fun c => c = ',' ∨ c = '\n') = true))
      (by simp [Lexeme.Writes])

/-- A layout can be checked one lexeme at a time. -/
theorem layout_of_forall₂ (us : List String)
    (h : List.Forall₂ Lexeme.Writes xs (us.map String.toList)) :
    Layout xs (us.map String.toList).flatten := by
  -- on the pieces of the text, one for each lexeme
  induction us generalizing xs with
  | nil =>
    cases h
    exact .nil (by simp [Spaces])
  | cons u us ih =>
    cases h with
    | cons hx hxs => exact .cons hx (ih hxs)

end FieldMapping
