import FieldMapping.Reading.Walk

/-!
# The grammar of field mappings

Which texts are field mappings, and of which statements, as a relation that says nothing about
reading. A rule `R s x r` states that the text `s` starts with an `x` and goes on with `r`; `sp`
and `ws` are the longest runs of blanks and of white space at a place, `RUN` is a stretch without
operators that reaches up to the next operator or the end of the text, and `LIT` is a quoted
literal:

    Atom       ::= ws RUN
    Val        ::= sp LIT | Atom | Atom sp '[' Atom sp ']'
    Params     ::= Atom sp ')' | Atom sp ':' Val sp ')' | Atom sp ':' Val sp ',' ws Params
    Args       ::= Val sp ')' | Val sp ',' ws Args
    Stage      ::= Atom [sp '(' Args] | ws end
    Stages     ::= Stage | Stage sp '|' Stages
    Source     ::= Atom | Atom [sp '(' Params] [sp '|' Stages]
    Head       ::= Atom [sp ':' Source]
    Statements ::= ws end                                    (in no block)
                 | Head sp '{' Statements Behind
                 | Head Behind                               (before '}', ',' or a line feed)
                 | Head sp [stray] Statements                (before anything else)
    Behind     ::= seps '}'                                  (in a block)
                 | seps Statements                           (before anything else)

An optional part is taken whenever the operator that introduces it comes next. A `stray` operator
is one that neither separates statements nor belongs to a block, and `seps` is the longest run of
white space and commas. A list of statements in a block takes the brace that closes it.
-/

namespace FieldMapping.Grammar

open Text

/-! ### Runs of characters -/

/-- `r` is what follows the longest run of characters of the class `p` at the start of `s`. -/
def Skips (p : Char → Bool) (s r : List Char) : Prop :=
  ∃ u, s = u ++ r ∧ (∀ c ∈ u, p c = true) ∧ ∀ c ∈ r.head?, p c = false

/-- The operator `o` comes next in `s`, and `r` is what follows it. -/
def Sign (o : Operator) (s r : List Char) : Prop :=
  Skips isBlank s (o.char :: r)

/-- `s` starts with a run of characters that are no operators, whose text without the white space
around it is `a`. -/
def Atom (s : List Char) (a : String) (r : List Char) : Prop :=
  ∃ run, Skips isSpace s (run ++ r) ∧ run ≠ [] ∧ (∀ c ∈ run, isOperator c = false) ∧
    (∀ c ∈ r.head?, isOperator c = true) ∧ a = String.ofList (trim run)

/-- `s` starts with the quoted literal `a`. -/
def Literal (s : List Char) (a : String) (r : List Char) : Prop :=
  ∃ q body, isQuote q = true ∧ q ∉ body ∧ s = q :: body ++ q :: r ∧
    a = String.ofList (q :: body ++ [q])

/-- The first character of `s` behind its blanks is a quote. -/
def QuoteNext (s : List Char) : Prop :=
  ∃ q r, isQuote q = true ∧ Skips isBlank s (q :: r)

/-- A part that is there if, and only if, the operator that introduces it comes next. -/
inductive Optional {α : Type} (o : Operator) (R : List Char → α → List Char → Prop) :
    List Char → Option α → List Char → Prop
  | present {s t r : List Char} {a : α} : Sign o s t → R t a r → Optional o R s (some a) r
  | absent {s : List Char} : (∀ t, ¬ Sign o s t) → Optional o R s none s

/-! ### Values, parameters and arguments -/

/-- A value: a literal where a quote comes next, a plain value with or without an index
elsewhere. -/
inductive Val : List Char → Value → List Char → Prop
  | literal {s t r : List Char} {a : String} : Skips isBlank s t → Literal t a r →
      Val s (.scalar a) r
  | plain {s r : List Char} {a : String} : ¬ QuoteNext s → Atom s a r →
      (∀ t, ¬ Sign .openBracket r t) → Val s (.scalar a) r
  | indexed {s t u x r : List Char} {base index : String} : ¬ QuoteNext s → Atom s base t →
      Sign .openBracket t u → Atom u index x → Sign .closeBracket x r →
      Val s (.indexed base index) r

/-- Keyed parameters and the parenthesis that closes them. -/
inductive Params : List Char → List Param → List Char → Prop
  | key {s t r : List Char} {k : String} : Atom s k t → Sign .closeParen t r →
      Params s [⟨k, none⟩] r
  | last {s t u x r : List Char} {k : String} {v : Value} : Atom s k t → Sign .colon t u →
      Val u v x → Sign .closeParen x r → Params s [⟨k, some v⟩] r
  | more {s t u x y z r : List Char} {k : String} {v : Value} {ps : List Param} : Atom s k t →
      Sign .colon t u → Val u v x → Sign .comma x y → Skips isSpace y z → Params z ps r →
      Params s (⟨k, some v⟩ :: ps) r

/-- Positional arguments and the parenthesis that closes them. -/
inductive Args : List Char → List Value → List Char → Prop
  | last {s t r : List Char} {v : Value} : Val s v t → Sign .closeParen t r → Args s [v] r
  | more {s t u x r : List Char} {v : Value} {vs : List Value} : Val s v t → Sign .comma t u →
      Skips isSpace u x → Args x vs r → Args s (v :: vs) r

/-! ### Pipelines and origins -/

/-- A processor, which lacks a name only where nothing but white space is left of the text. -/
inductive Stage : List Char → Processor → List Char → Prop
  | named {s t r : List Char} {name : String} {args : Option (List Value)} : Atom s name t →
      Optional .openParen Args t args r → Stage s ⟨name, args.getD []⟩ r
  | nameless {s : List Char} : Skips isSpace s [] → Stage s ⟨"", []⟩ []

/-- The processors of a pipeline, the first of them behind its bar. -/
inductive Stages : List Char → List Processor → List Char → Prop
  | last {s r : List Char} {p : Processor} : Stage s p r → (∀ t, ¬ Sign .bar r t) → Stages s [p] r
  | more {s t u r : List Char} {p : Processor} {ps : List Processor} : Stage s p t →
      Sign .bar t u → Stages u ps r → Stages s (p :: ps) r

/-- What comes next in `s` may follow a bare type name: a brace, a separator or the end. -/
def EndsType (s : List Char) : Prop :=
  (∃ o r, o ∈ [Operator.openBrace, .closeBrace, .comma, .newline] ∧ Sign o s r) ∨ Skips isBlank s []

/-- The origin of a statement: a field if its first character is above `a`, else a type with its
parameters and its pipeline. -/
inductive Source : List Char → Origin → List Char → Prop
  | field {s r : List Char} {name : String} : Atom s name r → (∀ c ∈ name.toList.head?, 'a' < c) →
      Source s (.field name) r
  | type {s t u r : List Char} {name : String} {params : Option (List Param)}
      {processors : Option (List Processor)} : Atom s name t →
      (∀ c ∈ name.toList.head?, ¬ 'a' < c) → Optional .openParen Params t params u →
      Optional .bar Stages u processors r →
      (params = none → processors = none → EndsType t) →
      Source s (.type ⟨name, params, processors⟩) r

/-! ### Statements -/

/-- The start of a statement: its name, and its origin if there is one. -/
def Head (s : List Char) (name : String) (origin : Option Origin) (r : List Char) : Prop :=
  ∃ t, Atom s name t ∧ Optional .colon Source t origin r

/-- A separator or the end of a block comes next in `s`. -/
def EndsStatement (s : List Char) : Prop :=
  ∃ o r, o ∈ [Operator.closeBrace, .comma, .newline] ∧ Sign o s r

/-- Neither a separator nor a brace comes next in `s`, and the next statement starts at `r`: behind
an operator, which is dropped, or at a character that is none. -/
def RunsOn (s r : List Char) : Prop :=
  (∃ o, o ∈ [Operator.colon, .bar, .openParen, .closeParen, .openBracket, .closeBracket] ∧
    Sign o s r) ∨ Skips isBlank s r ∧ ∀ c ∈ r.head?, isOperator c = false

/-- Where a list of statements stands: in no block, or in a block. -/
inductive Level where
  | root
  | block
  deriving DecidableEq

/-- The rest of a list of statements. The flag tells whether it starts behind the end of a
statement, where separators and the end of the list may come, or where a statement is due. -/
inductive Statements : Level → Bool → List Char → List Statement → List Char → Prop
  | finish {s : List Char} : Skips isSpace s [] → Statements .root false s [] []
  | close {s r : List Char} : Skips Walk.isSeparating s ('}' :: r) → Statements .block true s [] r
  | separate {l : Level} {s t r : List Char} {ts : List Statement} :
      Skips Walk.isSeparating s t → t.head? ≠ some '}' → Statements l false t ts r →
      Statements l true s ts r
  | block {l : Level} {s t u x r : List Char} {name : String} {origin : Option Origin}
      {inner ts : List Statement} : Head s name origin t → Sign .openBrace t u →
      Statements .block false u inner x → Statements l true x ts r →
      Statements l false s (⟨name, origin, some inner⟩ :: ts) r
  | ended {l : Level} {s t r : List Char} {name : String} {origin : Option Origin}
      {ts : List Statement} : Head s name origin t → EndsStatement t →
      Statements l true t ts r → Statements l false s (⟨name, origin, none⟩ :: ts) r
  | runOn {l : Level} {s t u r : List Char} {name : String} {origin : Option Origin}
      {ts : List Statement} : Head s name origin t → RunsOn t u → Statements l false u ts r →
      Statements l false s (⟨name, origin, none⟩ :: ts) r

/-- The text `s` is a field mapping of the statements `ts`. -/
def Document (s : List Char) (ts : List Statement) : Prop :=
  Statements .root false s ts []

end FieldMapping.Grammar
