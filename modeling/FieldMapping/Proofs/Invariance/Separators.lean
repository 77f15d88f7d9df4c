import FieldMapping.Proofs.Online.Literal

/-!
# Separators

The comma and the line feed both separate statements, but a comma separates items of a list as well,
a line feed is white space in front of a value, and a comma takes the white space behind it along. A
text may therefore fit with the one and not with the other. It never fits with both and means two
things (`eq_of_parse_comma_of_parse_newline`).

The reason is in the single character: outside of literals, one of the two is refused, or both lead
to the same state (`next_comma_or_newline`).

Behind a closing brace, separators mean nothing at all (`parse_separators_behind_brace`). Wherever
the brace stands outside of literals, it is refused or leads behind the end of a statement
(`leadsBehind_next`), and there a separator leaves the state as it is.
-/

namespace FieldMapping.Online

open Text

variable {limit : Nat} {w : Walk} {σ : State} {s : List Char}

/-! ### One character -/

/-- Behind an atom, a line feed is refused wherever a comma does not end the statement. -/
theorem endAtom_comma_or_newline (role : Role) (a : String) :
    endAtom limit w role a '\n' = refuse '\n' ∨
      endAtom limit w role a ',' = endAtom limit w role a '\n' := by
  cases role with
  | name => exact .inr rfl
  | origin statement =>
    refine .inr ?_
    unfold endAtom
    dsimp only
    split <;> rfl
  | key statement type before => exact .inl rfl
  | plain items => exact .inl rfl
  | index items base => exact .inl rfl
  | processor p => exact .inr rfl

/-- Outside of literals, a comma or a line feed is refused, or both lead to the same. -/
theorem next_comma_or_newline (hσ : σ.mode.isLiteral = false) :
    σ.next limit ',' = refuse ',' ∨ σ.next limit '\n' = refuse '\n' ∨
      σ.next limit ',' = σ.next limit '\n' := by
  obtain ⟨w, m⟩ := σ
  -- where an item is due, the comma is refused; behind a value it is the line feed; elsewhere both
  -- end the statement
  cases m with
  | due role => exact .inl rfl
  | atom role run => exact .inr (endAtom_comma_or_newline role _)
  | value items => exact .inl rfl
  | item items => exact .inl rfl
  | literal items q body => cases hσ
  | behindValue items v => exact .inr (.inl rfl)
  | behindList p => exact .inr (.inr rfl)
  | behind => exact .inr (.inr rfl)

/-! ### Texts -/

/-- A text is not read where its first character is refused. -/
theorem read_cons_refuse {c : Char} (h : σ.next limit c = refuse c) {ts : List Statement} :
    read limit σ (c :: s) ≠ .ok ts := by
  rw [read_cons, h, proceed_refuse]
  exact fun h => nomatch h

/-! ### Behind a closing brace -/

/-- Where `x` is no refusal, it leads behind the end of a statement. -/
def LeadsBehind (x : Except Cause State) : Prop :=
  ∀ σ, x = .ok σ → σ.mode = .behind

/-- A refusal leads nowhere. -/
theorem leadsBehind_refuse (c : Char) : LeadsBehind (refuse c) :=
  fun _ h => nomatch h

/-- A brace that closes a block leads behind the end of the statement that the block belongs to. -/
theorem leadsBehind_closeBlock (w : Walk) : LeadsBehind (closeBlock w) := by
  intro σ h
  unfold closeBlock at h
  split at h
  · cases h
    rfl
  · cases h

/-- Whatever has been read of a statement, a brace behind it closes the block around it. -/
theorem leadsBehind_behindHead (limit : Nat) (w : Walk) (name : String) (origin : Option Origin) :
    LeadsBehind (behindHead limit w name origin '}') :=
  leadsBehind_closeBlock (w.add name origin true)

/-- A brace behind an atom ends the statement that the atom is a part of, or it is refused. -/
theorem leadsBehind_endAtom (role : Role) (a : String) :
    LeadsBehind (endAtom limit w role a '}') := by
  cases role with
  | name => exact leadsBehind_behindHead limit _ a none
  | origin statement =>
    rw [endAtom]
    split
    · exact leadsBehind_behindHead limit w statement _
    · exact leadsBehind_behindHead limit w statement _
  | processor p => exact leadsBehind_behindHead limit w _ _
  | key statement type before => exact leadsBehind_refuse '}'
  | plain items => exact leadsBehind_refuse '}'
  | index items base => exact leadsBehind_refuse '}'

/-- Outside of literals, a closing brace is refused or ends a statement. -/
theorem leadsBehind_next (hσ : σ.mode.isLiteral = false) : LeadsBehind (σ.next limit '}') := by
  obtain ⟨w, m⟩ := σ
  -- where something is due the brace is refused, and within a list as well
  cases m with
  | due role => exact leadsBehind_refuse '}'
  | atom role run => exact leadsBehind_endAtom role _
  | value items => exact leadsBehind_refuse '}'
  | item items => exact leadsBehind_refuse '}'
  | literal items q body => cases hσ
  | behindValue items v => exact leadsBehind_refuse '}'
  | behindList p => exact leadsBehind_behindHead limit w _ _
  | behind => exact leadsBehind_closeBlock w

/-- Behind a brace, separators are skipped, and what follows them is read as without them. -/
theorem read_closeBrace_separators {t : List Char} (hσ : σ.mode.isLiteral = false)
    (ht : ∀ c ∈ t, Walk.isSeparating c = true) :
    (read limit σ ('}' :: (t ++ s))).mapError Prod.fst =
      (read limit σ ('}' :: s)).mapError Prod.fst := by
  rw [read_cons, read_cons]
  cases h : σ.next limit '}' with
  | error cause => rfl
  | ok σ' =>
    obtain ⟨w, m⟩ := σ'
    obtain rfl : m = .behind := leadsBehind_next hσ _ h
    rw [proceed, proceed, read_of_stays fun c hc => next_behind_separating (ht c hc)]

end FieldMapping.Online

namespace FieldMapping

open Online Text

/-- Outside of literals, a comma and a line feed never mean different things: if a text can be read
with either, then as the same statements. -/
theorem eq_of_parse_comma_of_parse_newline {limit : Nat} {u v : String} {ts ts' : List Statement}
    (hu : OutsideLiterals limit u) (hcomma : parse (u ++ "," ++ v) limit = .ok ts)
    (hnewline : parse (u ++ "\n" ++ v) limit = .ok ts') : ts = ts' := by
  rw [parse_eq_ok_iff_read] at hcomma hnewline
  simp only [String.toList_append, List.append_assoc] at hcomma hnewline
  rw [read_append] at hcomma hnewline
  cases hfeed : feed limit start u.toList with
  | error e =>
    -- what is refused within `u` fits with neither
    rw [hfeed] at hcomma
    cases hcomma
  | ok σ =>
    rw [hfeed] at hcomma hnewline
    change read limit σ (',' :: v.toList) = .ok ts at hcomma
    change read limit σ ('\n' :: v.toList) = .ok ts' at hnewline
    -- one character decides: a refusal fits with neither, and otherwise the states are the same
    rcases next_comma_or_newline (hu.isLiteral_eq_false hfeed) with h | h | h
    · exact absurd hcomma (read_cons_refuse h)
    · exact absurd hnewline (read_cons_refuse h)
    · rw [read_cons, h] at hcomma
      rw [read_cons] at hnewline
      cases hnext : σ.next limit '\n' with
      | error cause =>
        rw [hnext] at hnewline
        cases hnewline
      | ok σ' =>
        rw [hnext] at hcomma hnewline
        exact Except.ok.inj (hcomma.symm.trans hnewline)

/-- Behind the parameters of a type, in an open block. -/
theorem eq_of_parse_next_field : ∃ ts ts', OutsideLiterals 1 "n\x7b a: T(k: 'x,y')" ∧
    parse ("n\x7b a: T(k: 'x,y')" ++ "," ++ " b\x7d") 1 = .ok ts ∧
    parse ("n\x7b a: T(k: 'x,y')" ++ "\n" ++ " b\x7d") 1 = .ok ts' ∧ ts = ts' := by
  have hu : OutsideLiterals 1 "n\x7b a: T(k: 'x,y')" := by decide +kernel
  have hcomma : parse ("n\x7b a: T(k: 'x,y')" ++ "," ++ " b\x7d") 1 = .ok
      [⟨"n", none, some
        [⟨"a", some (.type ⟨"T", some [⟨"k", some (.scalar "'x,y'")⟩], none⟩), none⟩,
          ⟨"b", none, none⟩]⟩] := by decide +kernel
  have hnewline : parse ("n\x7b a: T(k: 'x,y')" ++ "\n" ++ " b\x7d") 1 = .ok
      [⟨"n", none, some
        [⟨"a", some (.type ⟨"T", some [⟨"k", some (.scalar "'x,y'")⟩], none⟩), none⟩,
          ⟨"b", none, none⟩]⟩] := by decide +kernel
  exact ⟨_, _, hu, hcomma, hnewline, eq_of_parse_comma_of_parse_newline hu hcomma hnewline⟩

/-- Behind a closing brace, separators change nothing: neither what a text means nor why it is
refused, wherever the brace stands outside of literals and whatever comes behind it. -/
theorem parse_separators_behind_brace {limit : Nat} {u v separators : String}
    (hu : OutsideLiterals limit u)
    (hseparators : ∀ c ∈ separators.toList, c = ',' ∨ isSpace c = true) :
    (parse (u ++ "\x7d" ++ separators ++ v) limit).mapError (·.cause) =
      (parse (u ++ "\x7d" ++ v) limit).mapError (·.cause) := by
  have hs : ∀ c ∈ separators.toList, Walk.isSeparating c = true := by
    intro c hc
    rcases hseparators c hc with rfl | hspace
    · rfl
    · exact Grammar.isSeparating_of_isSpace hspace
  have hbrace : "\x7d".toList = ['}'] := rfl
  rw [mapError_cause_parse, mapError_cause_parse]
  simp only [String.toList_append, List.append_assoc, hbrace, List.singleton_append]
  rw [read_append, read_append]
  -- up to the brace the two texts are the same
  cases hfeed : feed limit start u.toList with
  | error e => rfl
  | ok σ => exact read_closeBrace_separators (hu.isLiteral_eq_false hfeed) hs

/-- Behind the last statement of a block, in front of one that does not fit. -/
theorem parse_separators_behind_pipeline :
    OutsideLiterals 2 "n\x7bm\x7ba: T | P('\x7d')" ∧
    (∀ c ∈ ", \n,\t".toList, c = ',' ∨ isSpace c = true) ∧
    (parse ("n\x7bm\x7ba: T | P('\x7d')" ++ "\x7d" ++ ", \n,\t" ++ "\x7d )") 2).mapError (·.cause) =
      (parse ("n\x7bm\x7ba: T | P('\x7d')" ++ "\x7d" ++ "\x7d )") 2).mapError (·.cause) := by
  have hu : OutsideLiterals 2 "n\x7bm\x7ba: T | P('\x7d')" := by decide +kernel
  have hlist : ", \n,\t".toList = [',', ' ', '\n', ',', '\t'] := rfl
  have hseparators : ∀ c ∈ ", \n,\t".toList, c = ',' ∨ isSpace c = true := by
    rw [hlist]
    simp only [List.forall_mem_cons, List.not_mem_nil, IsEmpty.forall_iff, implies_true, and_true]
    decide
  exact ⟨hu, hseparators, parse_separators_behind_brace hu hseparators⟩

end FieldMapping
