import FieldMapping.Proofs.Online.Parsing

/-!
# The inside and the outside of literals

A literal is opened by a quote where a value is due, and by nothing else (`next_cases`). Outside of
literals every operator ends what has started (`isWithin_of_next`), so that nothing has where the
text goes on behind it.

A text that ends inside of a literal is refused for it, whatever the literal stands in, and no other
text is (`literal_of_parse`, `OutsideLiterals.isLiteral_eq_false`). That is how the inside of a
literal is told without the reader.
-/

namespace FieldMapping.Online

open Text Scan

variable {limit : Nat} {w : Walk} {σ σ' : State} {c q : Char} {items : Items} {body : List Char}

/-- Whether a literal has started. -/
def Mode.isLiteral : Mode → Bool
  | .literal _ _ _ => true
  | _ => false

/-! ### What a character leads to -/

/-- What comes of `c` where neither does a literal go on with it nor does it open one: nothing but
an atom goes on with it, and none if it is an operator. -/
def Apart (c : Char) : Except Cause State → Prop
  | .ok σ => σ.mode.isLiteral = false ∧ (isOperator c = true → σ.mode.isWithin = false) ∧
      ∀ role run, σ.mode = .atom role run → c ∈ run
  | .error cause => ∀ q, cause ≠ .unclosedQuote q

/-- A character that does not fit opens nothing. -/
theorem apart_refuse {d : Char} : Apart c (refuse d) :=
  fun _ h => nomatch h

/-- Outside of atoms and literals, nothing has started. -/
theorem apart_ok {m : Mode} (h : m.isWithin = false) : Apart c (.ok ⟨w, m⟩) := by
  refine ⟨?_, fun _ => h, ?_⟩
  · cases m <;> first | rfl | cases h
  · rintro role run rfl
    cases h

/-- An atom that goes on with a character holds it. -/
theorem apart_atom {role : Role} {run : List Char} (h : isOperator c = false) (hc : c ∈ run) :
    Apart c (.ok ⟨w, .atom role run⟩) := by
  refine ⟨rfl, fun hop => absurd hop (by simp [h]), fun role' run' hm => ?_⟩
  cases hm
  exact hc

/-- A character that is due as the start of an atom is no operator, or is refused. -/
theorem apart_startAtom {role : Role} : Apart c (startAtom w role c) := by
  unfold startAtom
  split
  · exact apart_refuse
  · rename_i h
    exact apart_atom (by simpa using h) (List.mem_singleton_self c)

/-- Closing a block starts nothing. -/
theorem apart_closeBlock : Apart c (closeBlock w) := by
  unfold closeBlock
  split
  · exact apart_ok rfl
  · exact apart_refuse

/-- Behind the start of a statement, only the name of the next one can start. -/
theorem apart_behindHead {name : String} {origin : Option Origin} :
    Apart c (behindHead limit w name origin c) := by
  unfold behindHead
  split
  · split
    · exact apart_ok rfl
    · exact fun _ h => nomatch h
  · exact apart_closeBlock
  · exact apart_ok rfl
  · exact apart_ok rfl
  · exact apart_ok rfl
  · -- no operator: an atom starts, which is allowed to go on
    rename_i hno
    refine apart_atom ?_ (List.mem_singleton_self c)
    by_contra hc
    obtain ⟨o, rfl⟩ := isOperator_eq_true_iff.1 (by simpa using hc)
    exact hno o (Token.ofChar_char o)

/-- Neither does anything else start where a processor may follow. -/
theorem apart_behindPipeline {p : Pipeline} : Apart c (behindPipeline limit w p c) := by
  unfold behindPipeline
  split
  · exact apart_ok rfl
  · exact apart_behindHead

/-- Behind the end of an item another one is due, but has not started. -/
theorem apart_endItem {v : Value} : Apart c (endItem w items v c) := by
  unfold endItem
  split
  · refine apart_ok ?_
    cases items <;> rfl
  · exact apart_ok rfl
  · exact apart_refuse

/-- The operator that ends an atom starts nothing, whatever the atom is read as. -/
theorem apart_endAtom {role : Role} {a : String} : Apart c (endAtom limit w role a c) := by
  -- each role allows for its own operators, and leaves the rest to what may stand behind it
  cases role with
  | name =>
    rw [endAtom]
    split
    · exact apart_ok rfl
    · exact apart_behindHead
  | origin statement =>
    rw [endAtom]
    split
    · exact apart_behindHead
    · split
      · exact apart_ok rfl
      · exact apart_ok rfl
      · split
        · exact apart_behindHead
        · exact apart_refuse
  | key statement type before =>
    rw [endAtom]
    split
    · exact apart_ok rfl
    · exact apart_ok rfl
    · exact apart_refuse
  | plain items =>
    rw [endAtom]
    split
    · exact apart_ok rfl
    · exact apart_endItem
  | index items base =>
    rw [endAtom]
    split
    · exact apart_ok rfl
    · exact apart_refuse
  | processor p =>
    rw [endAtom]
    split
    · exact apart_ok rfl
    · exact apart_behindPipeline

/-- Where a value is due, a quote opens a literal, and only a quote does. -/
theorem startValue_cases :
    (∃ items', isQuote c = true ∧ startValue w items c = .ok ⟨w, .literal items' c []⟩) ∨
      Apart c (startValue w items c) := by
  unfold startValue
  split
  · rename_i h
    exact .inl ⟨items, h, rfl⟩
  · exact .inr apart_startAtom

/-- A literal goes on with a character or is opened by it, or no literal is open behind it. -/
theorem next_cases (limit : Nat) (σ : State) (c : Char) :
    (∃ items q body, c ≠ q ∧ σ.next limit c = .ok ⟨σ.walk, .literal items q (body ++ [c])⟩) ∨
    (∃ items, isQuote c = true ∧ σ.next limit c = .ok ⟨σ.walk, .literal items c []⟩) ∨
      Apart c (σ.next limit c) := by
  obtain ⟨w, m⟩ := σ
  unfold State.next
  -- a literal is opened where a value is due, and goes on in its own state; everywhere else the
  -- character stays apart
  cases m with
  | due role =>
    dsimp only
    split
    · exact .inr (.inr (apart_ok rfl))
    · exact .inr (.inr apart_startAtom)
  | atom role run =>
    dsimp only
    split
    · exact .inr (.inr apart_endAtom)
    · rename_i h
      exact .inr (.inr (apart_atom (by simpa using h) List.mem_concat_self))
  | value items =>
    dsimp only
    split
    · exact .inr (.inr (apart_ok rfl))
    · split
      · exact .inr (.inr (apart_ok rfl))
      · exact .inr startValue_cases
  | item items =>
    dsimp only
    split
    · exact .inr (.inr (apart_ok rfl))
    · exact .inr startValue_cases
  | literal items q body =>
    dsimp only
    split
    · exact .inr (.inr (apart_ok rfl))
    · rename_i h
      exact .inl ⟨items, q, body, h, rfl⟩
  | behindValue items v =>
    dsimp only
    split
    · exact .inr (.inr (apart_ok rfl))
    · exact .inr (.inr apart_endItem)
  | behindList p =>
    dsimp only
    split
    · exact .inr (.inr (apart_ok rfl))
    · exact .inr (.inr apart_behindPipeline)
  | behind =>
    dsimp only
    split
    · exact .inr (.inr (apart_ok rfl))
    · split
      · exact .inr (.inr apart_closeBlock)
      · exact .inr (.inr apart_startAtom)

/-- A character behind which no literal is open neither opened one nor went into one. -/
theorem apart_of_next (h : σ.next limit c = .ok σ') (hσ' : σ'.mode.isLiteral = false) :
    Apart c (.ok σ') := by
  have hcases := next_cases limit σ c
  rw [h] at hcases
  rcases hcases with ⟨items, q, body, -, hnext⟩ | ⟨items, -, hnext⟩ | hapart
  · cases hnext
    cases hσ'
  · cases hnext
    cases hσ'
  · exact hapart

/-- Outside of literals, nothing has started behind an operator. -/
theorem isWithin_of_next (hc : isOperator c = true) (h : σ.next limit c = .ok σ')
    (hσ' : σ'.mode.isLiteral = false) : σ'.mode.isWithin = false := by
  obtain ⟨-, hwithin, -⟩ := apart_of_next h hσ'
  exact hwithin hc

/-- A literal that is open behind one of its quotes is opened by it. -/
theorem literal_of_next (h : σ.next limit q = .ok ⟨w, .literal items q body⟩) : body = [] := by
  have hcases := next_cases limit σ q
  rw [h] at hcases
  rcases hcases with ⟨items', q', body', hne, hnext⟩ | ⟨items', -, hnext⟩ | hapart
  · cases hnext
    exact absurd rfl hne
  · cases hnext
    rfl
  · cases hapart.1

/-! ### Texts that end inside of a literal -/

/-- No character is refused for a literal that is open. -/
theorem next_ne_unclosedQuote : σ.next limit c ≠ .error (.unclosedQuote q) := by
  intro h
  have hcases := next_cases limit σ c
  rw [h] at hcases
  rcases hcases with ⟨items, q', body, -, hnext⟩ | ⟨items, -, hnext⟩ | hapart
  · cases hnext
  · cases hnext
  · exact hapart q rfl

/-- So no text is, before its end is seen. -/
theorem feed_ne_unclosedQuote {s r : List Char} :
    feed limit σ s ≠ .error (.unclosedQuote q, r) := by
  induction s generalizing σ with
  | nil => exact fun h => nomatch h
  | cons c s ih =>
    cases h : σ.next limit c with
    | ok σ' =>
      rw [feed_cons_ok h]
      exact ih
    | error cause =>
      rw [feed_cons_error h]
      intro he
      cases he
      exact next_ne_unclosedQuote h

/-- Between two statements, the end of the text is not refused for a literal. -/
theorem finish_ne_unclosedQuote : finish w ≠ .error (.unclosedQuote q) := by
  unfold finish Walk.finish
  intro h
  cases hb : w.blocks with
  | nil =>
    rw [hb] at h
    cases h
  | cons b outer =>
    rw [hb] at h
    cases h

/-- Neither is it behind an atom. -/
theorem finishAtom_ne_unclosedQuote {role : Role} {a : String} :
    finishAtom w role a ≠ .error (.unclosedQuote q) := by
  intro h
  cases role with
  | name =>
    rw [finishAtom] at h
    split at h
    · exact finish_ne_unclosedQuote h
    · exact finish_ne_unclosedQuote h
  | origin statement =>
    rw [finishAtom] at h
    split at h
    · cases h
    · split at h
      · exact finish_ne_unclosedQuote h
      · exact finish_ne_unclosedQuote h
  | processor p => exact finish_ne_unclosedQuote h
  | _ => cases h

/-- Only the end of a text that has started a literal is refused for it. -/
theorem literal_of_ending (h : σ.ending = .error (.unclosedQuote q)) :
    ∃ items body, σ.mode = .literal items q body := by
  obtain ⟨w, m⟩ := σ
  cases m with
  | literal items q' body =>
    cases h
    exact ⟨items, body, rfl⟩
  | due role => exact absurd h finishAtom_ne_unclosedQuote
  | atom role run => exact absurd h finishAtom_ne_unclosedQuote
  | behindList p => exact absurd h finish_ne_unclosedQuote
  | behind => exact absurd h finish_ne_unclosedQuote
  | _ => cases h

/-- The end of the text `u` lies outside of quoted literals: `u` is not refused for a literal that
is open at its end. -/
def OutsideLiterals (limit : Nat) (u : String) : Prop :=
  ∀ e, parse u limit = .error e → ∀ quote, e.cause ≠ .unclosedQuote quote

instance {u : String} : Decidable (OutsideLiterals limit u) :=
  match h : parse u limit with
  | .ok _ => .isTrue fun _ he => nomatch h.symm.trans he
  | .error e =>
    match hc : e.cause with
    | .unclosedQuote quote => .isFalse fun hu => hu e h quote hc
    | .unexpected _ | .missingValue | .tooDeep _ => .isTrue fun e' he quote => by
      cases h.symm.trans he
      rw [hc]
      exact fun h => nomatch h

/-- Outside of literals, the reader is in none. -/
theorem OutsideLiterals.isLiteral_eq_false {u : String} (hu : OutsideLiterals limit u)
    (h : feed limit start u.toList = .ok σ) : σ.mode.isLiteral = false := by
  by_contra hσ
  obtain ⟨w, m⟩ := σ
  cases m with
  | literal items q body =>
    -- ended here, the text would be refused for the literal
    have hread : read limit start u.toList = .error (.unclosedQuote q, []) := by
      rw [read, h]
      rfl
    have hparse := parse_eq_read u limit
    rw [hread] at hparse
    exact hu _ hparse q rfl
  | _ => exact hσ rfl

/-- A text that is refused for a literal is read to its end. -/
theorem exists_feed_of_read {s r : List Char}
    (h : read limit σ s = .error (.unclosedQuote q, r)) :
    ∃ w items body, feed limit σ s = .ok ⟨w, .literal items q body⟩ := by
  rw [read] at h
  cases hs : feed limit σ s with
  | error f =>
    rw [hs] at h
    cases h
    exact absurd hs feed_ne_unclosedQuote
  | ok σ' =>
    -- the whole text has been taken, and its end is what is refused
    rw [hs] at h
    obtain ⟨cause, hend, hr⟩ := mapError_eq_error_iff.1 h
    cases hr
    obtain ⟨items, body, hm⟩ := literal_of_ending hend
    obtain ⟨w, m⟩ := σ'
    cases hm
    exact ⟨w, items, body, rfl⟩

/-- A text that is refused for a literal in its last character ends with the quote that opens the
literal. -/
theorem literal_of_parse {u : String} {e : SyntaxError}
    (h : parse (u ++ String.singleton q) limit = .error e) (he : e.cause = .unclosedQuote q) :
    ∃ w items, feed limit start (u.toList ++ [q]) = .ok ⟨w, .literal items q []⟩ := by
  obtain ⟨r, hread, -⟩ := exists_read_of_parse h
  rw [he, String.toList_append, String.toList_singleton] at hread
  obtain ⟨w, items, body, hfeed⟩ := exists_feed_of_read hread
  obtain ⟨σ, -, hnext⟩ := exists_of_feed_concat hfeed
  cases literal_of_next hnext
  exact ⟨w, items, hfeed⟩

end FieldMapping.Online
