import FieldMapping.Proofs.Online.Literal
import Mathlib.Logic.Relation

/-!
# Blanks beside operators

White space other than line feeds can be put next to any operator, and at the two ends of a text,
without changing what the text means or why it is refused (`parse_blanks_beside_operators`). Nothing
is asked of the text: the place may lie in the middle of a statement, and the text may be refused
before it or behind it. A line may therefore end with a carriage return as well.

Blanks do nothing between two things. Within an atom they would be a part of it, and there are two
reasons why they are not. Behind an operator no atom has started; in front of an operator the atom
ends, and what it ends with is trimmed away.
-/

namespace FieldMapping.Online

open Text

variable {limit : Nat} {w : Walk} {σ : State} {u v blanks : List Char}

/-- Blanks are no operators. -/
theorem isOperator_of_isBlank {c : Char} (h : isBlank c = true) : isOperator c = false := by
  by_contra hc
  rw [isBlank_of_isOperator (by simpa using hc)] at h
  cases h

/-- Blanks behind an atom are not a part of it. -/
theorem read_atom_blanks {role : Role} {run : List Char} (hblanks : ∀ c ∈ blanks, isBlank c = true)
    (hv : ∀ c ∈ v.head?, isOperator c = true) :
    read limit ⟨w, .atom role run⟩ (blanks ++ v) = read limit ⟨w, .atom role run⟩ v := by
  have hrun : ∀ c ∈ blanks, (!isOperator c) = true := by
    intro c hc
    rw [isOperator_of_isBlank (hblanks c hc)]
    rfl
  have hstop : ∀ c ∈ v.head?, (!isOperator c) = false := by
    intro c hc
    rw [hv c hc]
    rfl
  have hlone : v.takeWhile (!isOperator ·) = [] := takeWhile_append_eq (u := []) nofun hstop
  -- the blanks are at the end of the run, where trimming takes them away
  have htrim : trim (run ++ blanks) = trim run :=
    trim_append_append (w := []) nofun fun c hc => isSpace_of_isBlank (hblanks c hc)
  rw [read_atom, read_atom, takeWhile_append_eq hrun hstop, dropWhile_append_eq hrun hstop, hlone,
    dropWhile_eq_self hstop, htrim, List.append_nil]

/-- Blanks change nothing outside of literals, unless an atom goes on behind them. -/
theorem read_blanks (hσ : σ.mode.isLiteral = false) (hblanks : ∀ c ∈ blanks, isBlank c = true)
    (h : σ.mode.isWithin = false ∨ ∀ c ∈ v.head?, isOperator c = true) :
    read limit σ (blanks ++ v) = read limit σ v := by
  obtain ⟨w, m⟩ := σ
  cases hm : m.isWithin with
  | false => exact read_of_stays fun c hc => next_of_isBlank hm (hblanks c hc)
  | true =>
    cases m with
    | atom role run => exact read_atom_blanks hblanks (h.resolve_left (by simp [Mode.isWithin]))
    | literal items q body => cases hσ
    | _ => cases hm

/-- Outside of literals, nothing has started at the start of a text and behind an operator. -/
theorem isWithin_of_feed (hu : ∀ c ∈ u.getLast?, isOperator c = true)
    (h : feed limit start u = .ok σ) (hσ : σ.mode.isLiteral = false) :
    σ.mode.isWithin = false := by
  rcases List.eq_nil_or_concat u with rfl | ⟨u, c, rfl⟩
  · cases h
    rfl
  · rw [List.concat_eq_append] at h
    -- the last character is an operator, which starts nothing but a literal
    obtain ⟨σ₀, -, hnext⟩ := exists_of_feed_concat h
    have hc : isOperator c = true := hu c (by simp)
    exact isWithin_of_next hc hnext hσ

end FieldMapping.Online

namespace FieldMapping

open Online Text

variable {limit : Nat}

/-- The place between `u` and `v` is at an end of the text, behind an operator or in front of
one. -/
def BesideOperator (u v : String) : Prop :=
  (∀ c ∈ u.toList.getLast?, isOperator c = true) ∨ ∀ c ∈ v.toList.head?, isOperator c = true

/-- White space other than line feeds can be put beside operators, outside of literals. -/
theorem mapError_cause_parse_blanks {u v blanks : String}
    (hblanks : ∀ c ∈ blanks.toList, isBlank c = true) (hplace : BesideOperator u v)
    (hu : OutsideLiterals limit u) :
    (parse (u ++ blanks ++ v) limit).mapError (·.cause) =
      (parse (u ++ v) limit).mapError (·.cause) := by
  rw [mapError_cause_parse, mapError_cause_parse]
  simp only [String.toList_append, List.append_assoc]
  rw [read_append, read_append]
  cases hfeed : feed limit start u.toList with
  | error e => rfl
  | ok σ =>
    -- what is read within `u` is the same, and behind it the blanks are skipped
    have hσ : σ.mode.isLiteral = false := hu.isLiteral_eq_false hfeed
    dsimp only
    rw [read_blanks hσ hblanks (hplace.imp_left fun hu => isWithin_of_feed hu hfeed hσ)]

/-! ### Line ends -/

/-- The text `s'` is `s` with a carriage return in front of one line feed outside of literals. -/
def AddsReturn (limit : Nat) (s s' : String) : Prop :=
  ∃ u v, OutsideLiterals limit u ∧ s = u ++ "\n" ++ v ∧ s' = u ++ "\r\n" ++ v

/-- A carriage return in front of a line feed is a blank beside an operator. -/
theorem AddsReturn.mapError_cause_parse {s s' : String} (h : AddsReturn limit s s') :
    (parse s' limit).mapError (·.cause) = (parse s limit).mapError (·.cause) := by
  obtain ⟨u, v, hu, hs, hs'⟩ := h
  have hreturn : "\r\n" = "\r" ++ "\n" := by decide +kernel
  have hblank : ∀ c ∈ "\r".toList, isBlank c = true := List.all_eq_true.1 (by decide +kernel)
  have hplace : BesideOperator u ("\n" ++ v) := by
    refine .inr fun c hc => ?_
    obtain rfl : '\n' = c := by simpa using hc
    rfl
  have hparse := mapError_cause_parse_blanks hblank hplace hu
  simp only [hreturn, String.append_assoc] at hs hs' hparse
  rw [hs, hs', hparse]

/-- A carriage return more or less at line ends outside of literals changes nothing. -/
theorem mapError_cause_parse_returns {s s' : String}
    (h : Relation.ReflTransGen (AddsReturn limit) s s') :
    (parse s' limit).mapError (·.cause) = (parse s limit).mapError (·.cause) := by
  -- on the number of returns: each is added to the text with those before it
  induction h with
  | refl => rfl
  | tail _ hstep ih => rw [hstep.mapError_cause_parse, ih]

/-- Outside of literals, neither blanks beside operators nor carriage returns at line ends change
what a text means or why it is refused. -/
theorem parse_blanks_beside_operators (limit : Nat) :
    (∀ u v blanks : String, (∀ c ∈ blanks.toList, isBlank c = true) → BesideOperator u v →
      OutsideLiterals limit u → (parse (u ++ blanks ++ v) limit).mapError (·.cause) =
        (parse (u ++ v) limit).mapError (·.cause)) ∧
    ∀ s s' : String, Relation.ReflTransGen (AddsReturn limit) s s' →
      (parse s' limit).mapError (·.cause) = (parse s limit).mapError (·.cause) :=
  ⟨fun _ _ _ hblanks hplace hu => mapError_cause_parse_blanks hblanks hplace hu,
    fun _ _ h => mapError_cause_parse_returns h⟩

/-- Behind a stray parenthesis, and at a line end within parameters. -/
theorem parse_blanks_beside_stray_paren :
    (∀ c ∈ " \t".toList, isBlank c = true) ∧ BesideOperator "a )" "b: T" ∧
    OutsideLiterals 1 "a )" ∧
    (parse ("a )" ++ " \t" ++ "b: T") 1).mapError (·.cause) =
      (parse ("a )" ++ "b: T") 1).mapError (·.cause) ∧
    AddsReturn 1 "a: T(k:\n x)" "a: T(k:\r\n x)" ∧
    (parse "a: T(k:\r\n x)" 1).mapError (·.cause) =
      (parse "a: T(k:\n x)" 1).mapError (·.cause) := by
  have hblanks : ∀ c ∈ " \t".toList, isBlank c = true := List.all_eq_true.1 (by decide +kernel)
  have hplace : BesideOperator "a )" "b: T" := by
    refine .inl fun c hc => ?_
    obtain rfl : ')' = c := by simpa using hc
    rfl
  have hu : OutsideLiterals 1 "a )" := by decide +kernel
  have hreturn : AddsReturn 1 "a: T(k:\n x)" "a: T(k:\r\n x)" :=
    ⟨"a: T(k:", " x)", by decide +kernel, by decide +kernel, by decide +kernel⟩
  have h := parse_blanks_beside_operators 1
  exact ⟨hblanks, hplace, hu, h.1 _ _ _ hblanks hplace hu, hreturn, h.2 _ _ (.single hreturn)⟩

end FieldMapping
