import FieldMapping.Fault
import FieldMapping.Token

/-!
# Scanning

The three elementary acts of reading. `nextToken` takes the next operator, `value` takes the text
up to the next operator, and `quoted` takes a quoted literal, in which nothing has a meaning but the
closing quote. Blanks before a token or a literal are skipped, all white space before a value.

Each act leaves a suffix of the text, shorter whenever something was taken
(`length_nextToken_lt`, `length_value_lt`, `length_quoted_lt`): that is why reading ends.
-/

namespace FieldMapping.Scan

open Text

/-! ### Tokens -/

/-- `s` from its next token on. -/
def significant (s : List Char) : List Char :=
  s.dropWhile isBlank

/-- The next token of `s`. -/
def peekToken (s : List Char) : Token :=
  .ofHead (significant s)

/-- The next token of `s` and the text behind it. Only operators are taken, and a comma takes all
white space behind it along. -/
def nextToken (s : List Char) : Token × List Char :=
  match significant s with
  | [] => (.endOfInput, [])
  | c :: r =>
    match Token.ofChar c with
    | .operator .comma => (.operator .comma, trimStart r)
    | .operator o => (.operator o, r)
    | t => (t, c :: r)

/-- The failure that is due where the next token of `s` does not fit the grammar. -/
def unexpected (s : List Char) : Fault :=
  let (token, rest) := nextToken s
  ⟨.unexpected token.display, significant s, rest⟩

theorem length_significant_le (s : List Char) : (significant s).length ≤ s.length :=
  (List.dropWhile_sublist _).length_le

/-- A look at the next token sees what taking it gives. -/
theorem nextToken_fst (s : List Char) : (nextToken s).1 = peekToken s := by
  unfold nextToken peekToken
  split <;> rename_i h
  · simp [h]
  · rw [h, Token.ofHead_cons]
    split <;> simp_all

/-- The next token never lengthens the text; at the end of the input it takes nothing. -/
theorem length_nextToken_le (s : List Char) : (nextToken s).2.length ≤ s.length := by
  have hs := length_significant_le s
  unfold nextToken
  split <;> rename_i h
  · simp
  · rename_i c r
    rw [h, List.length_cons] at hs
    have := length_trimStart_le r
    split <;> simp only [List.length_cons] <;> omega

/-- Taking an operator shortens the text. -/
theorem length_nextToken_lt {s r : List Char} {o : Operator}
    (h : nextToken s = (.operator o, r)) : r.length < s.length := by
  have hs := length_significant_le s
  unfold nextToken at h
  split at h <;> rename_i hc
  · simp at h
  · rename_i c r'
    rw [hc, List.length_cons] at hs
    have := length_trimStart_le r'
    split at h
    · obtain ⟨-, rfl⟩ := Prod.mk.inj h
      omega
    · obtain ⟨-, rfl⟩ := Prod.mk.inj h
      omega
    · rename_i hno
      exact absurd (Prod.mk.inj h).1 (hno o)

/-! ### Values -/

/-- The text of `s` up to the next operator, without the white space at its two ends; it is empty
at the end of the input only. Fails where an operator stands in its place. -/
def value (s : List Char) : Except Fault (String × List Char) :=
  match trimStart s with
  | [] => .ok ("", [])
  | c :: r =>
    if isOperator c then .error (.here (.unexpected (Token.ofChar c).display) (c :: r))
    else
      let run := (c :: r).takeWhile (!isOperator ·)
      .ok (String.ofList (trim run), (c :: r).dropWhile (!isOperator ·))

/-- Taking a value shortens a text that has one. -/
theorem length_value_lt {s r : List Char} {t : String} (h : value s = .ok (t, r)) (ht : t ≠ "") :
    r.length < s.length := by
  have hs := length_trimStart_le s
  unfold value at h
  split at h <;> rename_i hc
  · simp only [Except.ok.injEq, Prod.mk.injEq] at h
    exact absurd h.1.symm ht
  · rename_i c r'
    rw [hc, List.length_cons] at hs
    split at h
    · cases h
    · rename_i hop
      simp only [Except.ok.injEq, Prod.mk.injEq] at h
      obtain ⟨-, rfl⟩ := h
      rw [List.dropWhile_cons_of_pos (by simpa using hop)]
      have := (List.dropWhile_sublist (!isOperator ·) (l := r')).length_le
      omega

/-- Reading a value never lengthens the text; with `length_value_lt`, it shortens the text where the
value is not empty. -/
theorem length_value_le {s r : List Char} {t : String} (h : value s = .ok (t, r)) :
    r.length ≤ s.length := by
  by_cases ht : t = ""
  · unfold value at h
    split at h <;> rename_i hc
    · simp only [Except.ok.injEq, Prod.mk.injEq] at h
      simp [← h.2]
    · rename_i c r'
      have hs := length_trimStart_le s
      rw [hc] at hs
      split at h
      · cases h
      · simp only [Except.ok.injEq, Prod.mk.injEq] at h
        obtain ⟨-, rfl⟩ := h
        exact Nat.le_trans (List.dropWhile_sublist _).length_le hs
  · exact Nat.le_of_lt (length_value_lt h ht)

/-! ### Quoted literals -/

/-- Whether the next token of `s` opens a quoted literal. -/
def startsQuoted (s : List Char) : Bool :=
  (significant s).head?.any isQuote

/-- The quoted literal at the start of `s`, its quotes included. Fails where none starts, taking
nothing, and where its closing quote is missing, taking all. -/
def quoted (s : List Char) : Except Fault (String × List Char) :=
  match significant s with
  | [] => .error (.here (.unexpected Token.endOfInput.display) [])
  | q :: r =>
    if isQuote q then
      match r.dropWhile (· != q) with
      | [] => .error (.here (.unclosedQuote q) [])
      | _ :: rest => .ok (String.ofList (q :: r.takeWhile (· != q) ++ [q]), rest)
    else .error (.here (.unexpected (Token.ofChar q).display) (q :: r))

/-- Taking a literal shortens the text. -/
theorem length_quoted_lt {s r : List Char} {t : String} (h : quoted s = .ok (t, r)) :
    r.length < s.length := by
  have hs := length_significant_le s
  unfold quoted at h
  split at h <;> rename_i hq
  · cases h
  · rename_i q r'
    rw [hq, List.length_cons] at hs
    split at h
    · split at h <;> rename_i hd
      · cases h
      · rename_i c rest
        simp only [Except.ok.injEq, Prod.mk.injEq] at h
        obtain ⟨-, rfl⟩ := h
        have hr := (List.dropWhile_sublist (· != q) (l := r')).length_le
        rw [hd, List.length_cons] at hr
        omega
    · cases h

end FieldMapping.Scan
