import FieldMapping.Proofs.Grammar.Rules

/-!
# Where the grammar breaks off

The rules of the grammar say which texts are read. Beside each rule `R` stands a relation
`R.Broken s cause r`: nothing can be read from `s` by the rule, the first thing that is wrong comes
at `r`, and `cause` says what it is. A broken text is a derivation that stops half way: everything
in front of `r` is read by rules that hold, and at `r` one of five things is the matter.

* An atom is due, but an operator or the end of the text comes (`Atom.Missing`).
* One of a few operators is due, but something else comes (`Sign.Missing`).
* The second quote of a literal is missing; `r` is the end of the text.
* The origin is missing behind the colon of a statement; `r` is the end of the text.
* A block opens inside as many blocks as there may be; `r` is the text in it.
-/

namespace FieldMapping.Grammar

open Text

/-! ### Single tokens -/

/-- What comes first in `s` is an operator, or nothing comes. -/
def Stops (s : List Char) : Prop :=
  ∀ c ∈ s.head?, isOperator c = true

/-- The complaint about what `r` starts with. -/
def found (r : List Char) : Cause :=
  .unexpected (Token.ofHead r).display

/-- An atom is due in `s`, but at `r` comes an operator, or the text ends. -/
def Atom.Missing (s : List Char) (cause : Cause) (r : List Char) : Prop :=
  Skips isSpace s r ∧ Stops r ∧ cause = found r

/-- One of the operators `os` is due in `s`, but at `r` comes something else. -/
def Sign.Missing (os : List Operator) (s : List Char) (cause : Cause) (r : List Char) : Prop :=
  (∀ o ∈ os, ∀ t, ¬ Sign o s t) ∧ Skips isBlank s r ∧ cause = found r

/-! ### Values, parameters and arguments -/

/-- A value: an open literal, a missing base, or an index that is missing or not closed. -/
inductive Val.Broken : List Char → Cause → List Char → Prop
  | quote {s body : List Char} {q : Char} : Skips isBlank s (q :: body) → isQuote q = true →
      q ∉ body → Val.Broken s (.unclosedQuote q) []
  | base {s r : List Char} {cause : Cause} : ¬ QuoteNext s → Atom.Missing s cause r →
      Val.Broken s cause r
  | index {s t u r : List Char} {cause : Cause} {base : String} : ¬ QuoteNext s → Atom s base t →
      Sign .openBracket t u → Atom.Missing u cause r → Val.Broken s cause r
  | bracket {s t u x r : List Char} {cause : Cause} {base index : String} : ¬ QuoteNext s →
      Atom s base t → Sign .openBracket t u → Atom u index x →
      Sign.Missing [.closeBracket] x cause r → Val.Broken s cause r

/-- Parameters: a key is missing, what should follow it, its value, or what should follow that. -/
inductive Params.Broken : List Char → Cause → List Char → Prop
  | key {s r : List Char} {cause : Cause} : Atom.Missing s cause r → Params.Broken s cause r
  | sign {s t r : List Char} {cause : Cause} {k : String} : Atom s k t →
      Sign.Missing [.closeParen, .colon] t cause r → Params.Broken s cause r
  | value {s t u r : List Char} {cause : Cause} {k : String} : Atom s k t → Sign .colon t u →
      Val.Broken u cause r → Params.Broken s cause r
  | behind {s t u x r : List Char} {cause : Cause} {k : String} {v : Value} : Atom s k t →
      Sign .colon t u → Val u v x → Sign.Missing [.comma, .closeParen] x cause r →
      Params.Broken s cause r
  | more {s t u x y z r : List Char} {cause : Cause} {k : String} {v : Value} : Atom s k t →
      Sign .colon t u → Val u v x → Sign .comma x y → Skips isSpace y z →
      Params.Broken z cause r → Params.Broken s cause r

/-- Arguments: a value is broken, or what should follow it is missing. -/
inductive Args.Broken : List Char → Cause → List Char → Prop
  | value {s r : List Char} {cause : Cause} : Val.Broken s cause r → Args.Broken s cause r
  | behind {s t r : List Char} {cause : Cause} {v : Value} : Val s v t →
      Sign.Missing [.comma, .closeParen] t cause r → Args.Broken s cause r
  | more {s t u x r : List Char} {cause : Cause} {v : Value} : Val s v t → Sign .comma t u →
      Skips isSpace u x → Args.Broken x cause r → Args.Broken s cause r

/-! ### Pipelines and origins -/

/-- The processors of a pipeline: a name is missing elsewhere than at the end of the text, or the
arguments of a processor are broken. -/
inductive Stages.Broken : List Char → Cause → List Char → Prop
  | name {s r : List Char} {cause : Cause} : Atom.Missing s cause r → r ≠ [] →
      Stages.Broken s cause r
  | args {s t u r : List Char} {cause : Cause} {name : String} : Atom s name t →
      Sign .openParen t u → Args.Broken u cause r → Stages.Broken s cause r
  | more {s t u r : List Char} {cause : Cause} {p : Processor} : Stage s p t → Sign .bar t u →
      Stages.Broken u cause r → Stages.Broken s cause r

/-- An origin: its name is missing, its parameters or its pipeline are broken, or what comes behind
a bare type name cannot follow it. -/
inductive Source.Broken : List Char → Cause → List Char → Prop
  | name {s r : List Char} {cause : Cause} : Atom.Missing s cause r → r ≠ [] →
      Source.Broken s cause r
  | missing {s : List Char} : Skips isSpace s [] → Source.Broken s .missingValue []
  | params {s t u r : List Char} {cause : Cause} {name : String} : Atom s name t →
      (∀ c ∈ name.toList.head?, ¬ 'a' < c) → Sign .openParen t u → Params.Broken u cause r →
      Source.Broken s cause r
  | stages {s t u x r : List Char} {cause : Cause} {name : String} {params : Option (List Param)} :
      Atom s name t → (∀ c ∈ name.toList.head?, ¬ 'a' < c) →
      Optional .openParen Params t params u → Sign .bar u x → Stages.Broken x cause r →
      Source.Broken s cause r
  | behind {s t r : List Char} {cause : Cause} {name : String} : Atom s name t →
      (∀ c ∈ name.toList.head?, ¬ 'a' < c) →
      Sign.Missing [.openParen, .bar, .openBrace, .closeBrace, .comma, .newline] t cause r →
      r ≠ [] → Source.Broken s cause r

/-! ### Statements -/

/-- The start of a statement: its name is missing, or its origin is broken. -/
inductive Head.Broken : List Char → Cause → List Char → Prop
  | name {s r : List Char} {cause : Cause} : Atom.Missing s cause r → r ≠ [] →
      Head.Broken s cause r
  | origin {s t u r : List Char} {cause : Cause} {name : String} : Atom s name t →
      Sign .colon t u → Source.Broken u cause r → Head.Broken s cause r

/-- The rest of a list of statements in `n` blocks, of which `limit` may be open. The flag tells, as
in `Statements`, whether the rest starts behind the end of a statement. -/
inductive Statements.Broken (limit : Nat) : Nat → Bool → List Char → Cause → List Char → Prop
  | head {n : Nat} {s r : List Char} {cause : Cause} : Head.Broken s cause r →
      Statements.Broken limit n false s cause r
  | tooDeep {n : Nat} {s t r : List Char} {name : String} {origin : Option Origin} :
      Head s name origin t → Sign .openBrace t r → limit ≤ n →
      Statements.Broken limit n false s (.tooDeep limit) r
  | unclosed {n : Nat} {s : List Char} : Skips isSpace s [] →
      Statements.Broken limit (n + 1) false s (found []) []
  | unopened {s r : List Char} : Skips Walk.isSeparating s ('}' :: r) →
      Statements.Broken limit 0 true s (found ('}' :: r)) ('}' :: r)
  | separate {n : Nat} {s t r : List Char} {cause : Cause} : Skips Walk.isSeparating s t →
      t.head? ≠ some '}' → Statements.Broken limit n false t cause r →
      Statements.Broken limit n true s cause r
  | block {n : Nat} {s t u r : List Char} {cause : Cause} {name : String}
      {origin : Option Origin} : Head s name origin t → Sign .openBrace t u → n < limit →
      Statements.Broken limit (n + 1) false u cause r → Statements.Broken limit n false s cause r
  | close {n : Nat} {s t r : List Char} {cause : Cause} : Skips Walk.isSeparating s ('}' :: t) →
      Statements.Broken limit n true t cause r → Statements.Broken limit (n + 1) true s cause r
  | ended {n : Nat} {s t r : List Char} {cause : Cause} {name : String} {origin : Option Origin} :
      Head s name origin t → EndsStatement t → Statements.Broken limit n true t cause r →
      Statements.Broken limit n false s cause r
  | runOn {n : Nat} {s t u r : List Char} {cause : Cause} {name : String}
      {origin : Option Origin} : Head s name origin t → RunsOn t u →
      Statements.Broken limit n false u cause r → Statements.Broken limit n false s cause r

end FieldMapping.Grammar
