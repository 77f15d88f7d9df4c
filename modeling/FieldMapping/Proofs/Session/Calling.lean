import FieldMapping.Proofs.Fault.Place
import FieldMapping.Proofs.Grammar.Image
import FieldMapping.Proofs.Online.Reading
import FieldMapping.Proofs.Session.Leaving

/-!
# Calls on a cursor

A cursor may be asked for tokens, values and literals in any order, and go on after a complaint.
`Cursor.Act.Serves` says what each of the three acts takes and answers, in terms of the text alone,
and `Cursor.call_act_eq_iff` that the acts do exactly this.

Everything else follows from it: where a cursor may stand (`Cursor.Placed`), that it never goes
back, and what a value may be. `Cursor.contract_of_calls` collects what holds behind any calls
whatsoever.
-/

namespace FieldMapping

open Text Scan Grammar

/-! ### Calls -/

/-- A call on a cursor: an act that moves it, or a look ahead. -/
inductive Cursor.Call where
  | act (a : Cursor.Act)
  | peekToken
  | peekSignificant
  | peekChar (n : Nat)
  deriving DecidableEq, Repr

/-- What a call answers. -/
inductive Cursor.Answer where
  | token (t : Token)
  | char (c : Option Char)
  | text (result : Except SyntaxError String)

namespace Cursor

/-- The answer to a call, and the cursor behind it. -/
def call (c : Cursor) : Call → Answer × Cursor
  | .act .nextToken => (.token c.nextToken.1, c.nextToken.2)
  | .act .value => (.text c.value.1, c.value.2)
  | .act .quoted => (.text c.quoted.1, c.quoted.2)
  | .peekToken => (.token c.peekToken, c)
  | .peekSignificant => (.char c.peekSignificant, c)
  | .peekChar n => (.char (c.peekChar n), c)

/-- The cursor behind calls, one after the other. -/
def after (c : Cursor) (calls : List Call) : Cursor :=
  calls.foldl (fun c k => (c.call k).2) c

@[simp] theorem after_nil (c : Cursor) : c.after [] = c := rfl

@[simp] theorem after_cons (c : Cursor) (k : Call) (calls : List Call) :
    c.after (k :: calls) = (c.call k).2.after calls := rfl

/-! ### What an act takes -/

/-- The report on `cause` where `s` is what is unread of `source`. -/
def report (cause : Cause) (source s : List Char) : SyntaxError :=
  (Fault.here cause s).locate source

/-- An act is served on the unread text `s` of `source`: it gives an answer, the token or value that
it takes starts where `mark` is unread, and `r` is what it leaves unread.

Only blanks are skipped in front of a token or a literal, and all white space in front of a value.
An act that finds no literal or no value in its place has skipped this much, and takes nothing. -/
inductive Act.Serves (source s : List Char) : Act → Answer → List Char → List Char → Prop
  /-- An operator is taken. -/
  | operator {o : Operator} {r : List Char} : o ≠ .comma → Sign o s r →
      Serves source s .nextToken (.token (.operator o)) (o.char :: r) r
  /-- A comma is taken, and all white space behind it. -/
  | comma {t r : List Char} : Sign .comma s t → Skips isSpace t r →
      Serves source s .nextToken (.token (.operator .comma)) (',' :: t) r
  /-- In front of text and at the end, nothing is taken. -/
  | noOperator {r : List Char} : Skips isBlank s r → (∀ c ∈ r.head?, isOperator c = false) →
      Serves source s .nextToken (.token (.ofHead r)) r r
  /-- A stretch up to the next operator or the end is taken. -/
  | value {run r : List Char} : Skips isSpace s (run ++ r) → run ≠ [] →
      (∀ c ∈ run, isOperator c = false) → (∀ c ∈ r.head?, isOperator c = true) →
      Serves source s .value (.text (.ok (String.ofList (trim run)))) (run ++ r) r
  /-- Nothing but white space is left. -/
  | noText : Skips isSpace s [] → Serves source s .value (.text (.ok "")) [] []
  /-- An operator stands in the place of a value. -/
  | noValue {o : Operator} {r : List Char} : Skips isSpace s (o.char :: r) →
      Serves source s .value
        (.text (.error (report (.unexpected (Token.operator o).display) source (o.char :: r))))
        (o.char :: r) (o.char :: r)
  /-- A literal is taken up to its second quote. -/
  | quoted {q : Char} {body r : List Char} : isQuote q = true → q ∉ body →
      Skips isBlank s (q :: body ++ q :: r) →
      Serves source s .quoted (.text (.ok (String.ofList (q :: body ++ [q]))))
        (q :: body ++ q :: r) r
  /-- The second quote is missing: everything is taken. -/
  | unclosed {q : Char} {body : List Char} : isQuote q = true → q ∉ body →
      Skips isBlank s (q :: body) →
      Serves source s .quoted (.text (.error (report (.unclosedQuote q) source []))) (q :: body) []
  /-- No quote stands in the place of a literal. -/
  | noQuote {r : List Char} : Skips isBlank s r → (∀ c ∈ r.head?, isQuote c = false) →
      Serves source s .quoted
        (.text (.error (report (.unexpected (Token.ofHead r).display) source r))) r r

section Serving

variable {source s mark r : List Char} {a : Act} {answer : Answer}

/-- Every act is served, whatever is unread. -/
theorem Act.exists_serves (source s : List Char) (a : Act) :
    ∃ answer mark r, a.Serves source s answer mark r := by
  cases a with
  | nextToken =>
    rcases sign_or_skips s with ⟨o, t, h⟩ | ⟨r, h, hr⟩
    · by_cases ho : o = .comma
      · subst ho
        exact ⟨_, _, _, .comma h (skips_iff.2 rfl)⟩
      · exact ⟨_, _, _, .operator ho h⟩
    · exact ⟨_, _, _, .noOperator h hr⟩
  | value =>
    cases hs : s.dropWhile isSpace with
    | nil => exact ⟨_, _, _, .noText (skips_iff.2 hs)⟩
    | cons c t =>
      -- an operator in front, or a run up to the next one
      by_cases hc : isOperator c = true
      · obtain ⟨o, rfl⟩ := isOperator_eq_true_iff.1 hc
        exact ⟨_, _, _, .noValue (skips_iff.2 hs)⟩
      · obtain ⟨run, hrun, hop, hr⟩ :=
          dropWhile_eq_iff.1 (rfl : (c :: t).dropWhile (!isOperator ·) = _)
        have hskips := skips_iff.2 (hs.trans hrun)
        refine ⟨_, _, _, .value hskips ?_ (by simpa using hop) (by simpa using hr)⟩
        -- the first character is no operator, so the run is not empty
        rintro rfl
        exact hc (by simpa using hr c (by rw [← List.nil_append (List.dropWhile _ _), ← hrun]; rfl))
  | quoted =>
    cases hs : s.dropWhile isBlank with
    | nil => exact ⟨_, _, _, .noQuote (skips_iff.2 hs) (by simp)⟩
    | cons q t =>
      by_cases hq : isQuote q = true
      · by_cases hmem : q ∈ t
        · obtain ⟨body, r, rfl, hbody⟩ := List.eq_append_cons_of_mem hmem
          exact ⟨_, _, _, .quoted hq hbody (skips_iff.2 hs)⟩
        · exact ⟨_, _, _, .unclosed hq hmem (skips_iff.2 hs)⟩
      · exact ⟨_, _, _, .noQuote (skips_iff.2 hs) (by simpa using hq)⟩

/-- An operator in the place of a value is unexpected there. -/
theorem value_of_operator {o : Operator} (h : Skips isSpace s (o.char :: r)) :
    Scan.value s = .error (.here (.unexpected (Token.operator o).display) (o.char :: r)) := by
  have hs : trimStart s = o.char :: r := skips_iff.1 h
  unfold Scan.value
  rw [hs]
  show (if isOperator o.char = true then _ else _) = _
  rw [if_pos (isOperator_char o), Token.ofChar_char]

/-- A literal whose second quote is missing is not closed, at the end of the text. -/
theorem quoted_of_unclosed {q : Char} {body : List Char} (hq : isQuote q = true) (hbody : q ∉ body)
    (h : Skips isBlank s (q :: body)) :
    Scan.quoted s = .error (.here (.unclosedQuote q) []) := by
  have hs : significant s = q :: body := skips_iff.1 h
  have hend : body.dropWhile (· != q) = [] := by
    refine List.dropWhile_eq_nil_iff.2 fun c hc => ?_
    simpa using fun he : c = q => hbody (he ▸ hc)
  unfold Scan.quoted
  rw [hs]
  show (if isQuote q = true then _ else _) = _
  rw [if_pos hq, hend]

/-- What stands in the place of a literal and is no quote is unexpected there. -/
theorem quoted_of_not_isQuote (h : Skips isBlank s r) (hr : ∀ c ∈ r.head?, isQuote c = false) :
    Scan.quoted s = .error (.here (.unexpected (Token.ofHead r).display) r) := by
  have hs : significant s = r := skips_iff.1 h
  unfold Scan.quoted
  rw [hs]
  cases r with
  | nil => rfl
  | cons c r =>
    show (if isQuote c = true then _ else _) = _
    rw [if_neg (by simp [hr c rfl])]
    rfl

/-- An act does what serves it: it answers so, and moves the cursor accordingly. -/
theorem call_act_of_serves {c : Cursor} (h : a.Serves c.source c.rest answer mark r) :
    c.call (.act a) = (answer, { c with rest := r, mark }) := by
  -- what `Scan` takes is known by its own equations; the place that is remembered is where the
  -- skipping stops, whatever comes of the act
  have htoken : c.call (.act .nextToken) = (.token (Scan.nextToken c.rest).1,
      { c with rest := (Scan.nextToken c.rest).2, mark := significant c.rest }) := rfl
  have hvalue : c.call (.act .value) = ((c.advance (trimStart c.rest) (Scan.value c.rest)).map
      .text id) := rfl
  have hquoted : c.call (.act .quoted) = ((c.advance (significant c.rest) (Scan.quoted c.rest)).map
      .text id) := rfl
  cases h with
  | operator ho hs => rw [htoken, nextToken_of_sign hs, if_neg ho, sign_iff.1 hs]
  | comma hs ht =>
    -- the only act that skips behind what it takes
    have ht : trimStart _ = r := skips_iff.1 ht
    rw [htoken, nextToken_of_sign hs, if_pos rfl, sign_iff.1 hs, ht]
    rfl
  | noOperator hs hr =>
    have hs' : significant c.rest = mark := skips_iff.1 hs
    rw [htoken, nextToken_of_skips hs hr, hs']
  | value hs hne hrun hr =>
    have hs' : trimStart c.rest = _ ++ r := skips_iff.1 hs
    rw [hvalue, value_eq_ok_iff.2 (.inl ⟨_, hs, hne, hrun, hr, rfl⟩), hs']
    rfl
  | noText hs =>
    have hs' : trimStart c.rest = [] := skips_iff.1 hs
    rw [hvalue, value_eq_ok_iff.2 (.inr ⟨hs, rfl, rfl⟩), hs']
    rfl
  | noValue hs =>
    have hs' : trimStart c.rest = _ := skips_iff.1 hs
    rw [hvalue, value_of_operator hs, hs']
    rfl
  | quoted hq hbody hs =>
    have hs' : significant c.rest = _ := skips_iff.1 hs
    rw [hquoted, quoted_eq_ok_iff.2 ⟨_, hs, _, _, hq, hbody, rfl, rfl⟩, hs']
    rfl
  | unclosed hq hbody hs =>
    have hs' : significant c.rest = _ := skips_iff.1 hs
    rw [hquoted, quoted_of_unclosed hq hbody hs, hs']
    rfl
  | noQuote hs hr =>
    have hs' : significant c.rest = _ := skips_iff.1 hs
    rw [hquoted, quoted_of_not_isQuote hs hr, hs']
    rfl

/-- An act does what serves it, and nothing else serves it. -/
theorem call_act_eq_iff {c c' : Cursor} : c.call (.act a) = (answer, c') ↔
    ∃ mark r, a.Serves c.source c.rest answer mark r ∧ c' = ⟨c.source, r, mark⟩ := by
  constructor
  · intro h
    -- some service is there, and the call does what it says
    obtain ⟨answer', mark, r, hserves⟩ := a.exists_serves c.source c.rest
    rw [call_act_of_serves hserves] at h
    cases h
    exact ⟨mark, r, hserves, rfl⟩
  · rintro ⟨mark, r, hserves, rfl⟩
    exact call_act_of_serves hserves

/-- An act takes from the front of what is unread. -/
theorem Act.Serves.suffix (h : a.Serves source s answer mark r) : r <:+ mark ∧ mark <:+ s := by
  cases h with
  | operator ho hs => exact ⟨List.suffix_cons _ r, Skips.suffix hs⟩
  | comma hs ht => exact ⟨ht.suffix.trans (List.suffix_cons _ _), Skips.suffix hs⟩
  | noOperator hs hr => exact ⟨List.suffix_rfl, hs.suffix⟩
  | value hs hne hrun hr => exact ⟨List.suffix_append _ r, hs.suffix⟩
  | noText hs => exact ⟨List.suffix_rfl, hs.suffix⟩
  | noValue hs => exact ⟨List.suffix_rfl, hs.suffix⟩
  | quoted hq hbody hs =>
    exact ⟨(List.suffix_cons _ r).trans (List.suffix_append _ _), hs.suffix⟩
  | unclosed hq hbody hs => exact ⟨List.nil_suffix, hs.suffix⟩
  | noQuote hs hr => exact ⟨List.suffix_rfl, hs.suffix⟩

end Serving

/-! ### Where a cursor stands -/

/-- A cursor stands in `source`, at or behind the place where the last token or value starts. -/
structure Placed (source : String) (c : Cursor) : Prop where
  source_eq : c.source = source.toList
  rest_suffix : c.rest <:+ c.mark
  mark_suffix : c.mark <:+ source.toList

section Placed

variable {source : String} {c : Cursor}

/-- A new cursor stands in front of its text. -/
theorem placed_start (source : String) : Placed source (start source) :=
  ⟨rfl, List.suffix_rfl, List.suffix_rfl⟩

/-- What is unread is an end of the source. -/
theorem Placed.rest_suffix_source (h : Placed source c) : c.rest <:+ source.toList :=
  h.rest_suffix.trans h.mark_suffix

/-- A call keeps a cursor in its text, and does not move it back. -/
theorem Placed.call (h : Placed source c) (k : Call) :
    Placed source (c.call k).2 ∧ (c.call k).2.rest <:+ c.rest := by
  cases k with
  | act a =>
    obtain ⟨answer, mark, r, hserves⟩ := a.exists_serves c.source c.rest
    obtain ⟨hr, hmark⟩ := hserves.suffix
    rw [call_act_of_serves hserves]
    exact ⟨⟨h.source_eq, hr, hmark.trans h.rest_suffix_source⟩, hr.trans hmark⟩
  | _ => exact ⟨h, List.suffix_rfl⟩

/-- Calls keep a cursor in its text, and do not move it back. -/
theorem Placed.after (h : Placed source c) (calls : List Call) :
    Placed source (c.after calls) ∧ (c.after calls).rest <:+ c.rest := by
  -- on the calls, from the first one on
  induction calls generalizing c with
  | nil => exact ⟨h, List.suffix_rfl⟩
  | cons k calls ih =>
    obtain ⟨hcall, hrest⟩ := h.call k
    obtain ⟨hafter, hrest'⟩ := ih hcall
    exact ⟨hafter, hrest'.trans hrest⟩

/-- A cursor that leaves less unread stands further on. -/
theorem Placed.position_le {c' : Cursor} (h : Placed source c) (h' : Placed source c')
    (hrest : c'.rest <:+ c.rest) : c.position ≤ c'.position := by
  obtain ⟨taken, htaken⟩ := hrest
  unfold position
  rw [h.source_eq, h'.source_eq, ← htaken, byteSize_append]
  omega

/-- A cursor stands at a character boundary of its text, and a complaint about the last token or
value names a boundary that is not behind it. -/
theorem Placed.exists_boundary (h : Placed source c) : ∃ before taken,
    source.toList = before ++ taken ++ c.rest ∧ c.position = byteSize (before ++ taken) ∧
      (String.Pos.Raw.mk c.position).IsValid source ∧
      ∀ token, (c.unexpected token).offset = byteSize before := by
  obtain ⟨hsource, ⟨taken, htaken⟩, ⟨before, hbefore⟩⟩ := h
  -- what is remembered as the place of the last token is not behind what is unread
  have htext : source.toList = before ++ taken ++ c.rest := by
    rw [List.append_assoc, htaken, hbefore]
  have hposition : c.position = byteSize (before ++ taken) := by
    rw [position, hsource, htext, byteSize_append, Nat.add_sub_cancel]
  have hvalid : (String.Pos.Raw.mk c.position).IsValid source :=
    isValid_iff.2 ⟨before ++ taken, ⟨c.rest, htext.symm⟩, hposition.symm⟩
  refine ⟨before, taken, htext, hposition, hvalid, fun token => ?_⟩
  rw [unexpected, hsource, ← hbefore, Fault.locate_append, offset_ofOffset_append]

end Placed

/-! ### Values -/

/-- No text comes next in front of an operator and at the end. -/
theorem peekToken_ne_text {r : List Char} (hr : ∀ c ∈ r.head?, isOperator c = true) (x : Char) :
    Scan.peekToken r ≠ .text x := by
  intro htext
  cases r with
  | nil => cases htext
  | cons c r =>
    obtain ⟨o, rfl⟩ := isOperator_eq_true_iff.1 (hr c rfl)
    rw [Scan.peekToken, Online.significant_char_cons, Token.ofHead_cons, Token.ofChar_char] at htext
    cases htext

/-- A value that is taken is an atom, or the empty text where nothing but white space is left. No
text comes next behind it. -/
theorem of_call_value {c c' : Cursor} {text : String}
    (h : c.call (.act .value) = (.text (.ok text), c')) :
    (text = "" ↔ ∀ x ∈ c.rest, isSpace x = true) ∧ (text ≠ "" → IsAtom text) ∧
      ∀ x, c'.peekToken ≠ .text x := by
  obtain ⟨mark, r, hserves, rfl⟩ := call_act_eq_iff.1 h
  cases hserves with
  | value hs hne hrun hr =>
    have ha : Grammar.Atom c.rest _ r := ⟨_, hs, hne, hrun, hr, rfl⟩
    refine ⟨⟨fun he => absurd he ha.ne_empty, fun hspace => ?_⟩, fun _ => ha.isAtom, fun x => ?_⟩
    · -- white space alone leaves nothing to start a value with
      have hnil : c.rest.dropWhile isSpace = [] := List.dropWhile_eq_nil_iff.2 hspace
      rw [skips_iff.1 hs, List.append_eq_nil_iff] at hnil
      exact absurd hnil.1 hne
    · -- what ends the run is an operator or the end of the text
      exact peekToken_ne_text hr x
  | noText hs =>
    have hspace : ∀ x ∈ c.rest, isSpace x = true := List.dropWhile_eq_nil_iff.1 (skips_iff.1 hs)
    exact ⟨⟨fun _ => hspace, fun _ => rfl⟩, fun he => absurd rfl he, fun x => nofun⟩

/-- A value is refused for the operator in its place. -/
theorem of_call_value_error {c c' : Cursor} {e : SyntaxError}
    (h : c.call (.act .value) = (.text (.error e), c')) : ∃ o, c'.peekToken = .operator o ∧
      e = .ofOffset (.unexpected (Token.operator o).display) c.source c'.position := by
  obtain ⟨mark, r, hserves, rfl⟩ := call_act_eq_iff.1 h
  cases hserves with
  | @noValue o r hs =>
    refine ⟨o, ?_, rfl⟩
    show Token.ofHead (significant (o.char :: r)) = _
    rw [Online.significant_char_cons, Token.ofHead_cons, Token.ofChar_char]

/-! ### The contract -/

/-- What holds of a cursor on `source` behind any calls. -/
structure Contract (source : String) (c : Cursor) : Prop where
  /-- It stands at a character boundary, and what it complains about starts at one before. -/
  boundary : ∃ before taken, source.toList = before ++ taken ++ c.rest ∧
    c.position = byteSize (before ++ taken) ∧ (String.Pos.Raw.mk c.position).IsValid source ∧
    ∀ token, (c.unexpected token).offset = byteSize before
  /-- It never goes back. -/
  position_le_after : ∀ calls, c.position ≤ (c.after calls).position
  /-- A look at the next token sees what taking it gives, and looks ahead change nothing. -/
  peekToken : c.call .peekToken = ((c.call (.act .nextToken)).1, c)
  peekSignificant : (c.call .peekSignificant).2 = c
  peekChar : ∀ n, (c.call (.peekChar n)).2 = c
  /-- An act takes and answers what serves it. -/
  act : ∀ a answer c', c.call (.act a) = (answer, c') ↔
    ∃ mark r, a.Serves source.toList c.rest answer mark r ∧ c' = ⟨source.toList, r, mark⟩
  value : ∀ text c', c.call (.act .value) = (.text (.ok text), c') →
    (text = "" ↔ ∀ x ∈ c.rest, isSpace x = true) ∧ (text ≠ "" → IsAtom text) ∧
      ∀ x, c'.peekToken ≠ .text x
  value_error : ∀ e c', c.call (.act .value) = (.text (.error e), c') → ∃ o,
    c'.peekToken = .operator o ∧
      e = .ofOffset (.unexpected (Token.operator o).display) source.toList c'.position

/-- **The contract of a cursor.** Whichever calls a cursor is used for, whatever they answer, it
stands at a character boundary behind what it has taken, and every further call takes and answers
what the text asks for. -/
theorem contract_of_calls (source : String) (calls : List Call) :
    Contract source ((start source).after calls) := by
  obtain ⟨hplaced, -⟩ := (placed_start source).after calls
  -- the calls matter for what follows only through the place where they leave the cursor
  have hsource := hplaced.source_eq
  refine ⟨hplaced.exists_boundary, fun more => ?_, ?_, rfl, fun n => rfl, fun a answer c' => ?_,
    fun text c' => of_call_value, fun e c' h => ?_⟩
  · obtain ⟨hafter, hrest⟩ := hplaced.after more
    exact hplaced.position_le hafter hrest
  · exact congrArg (fun t => (Answer.token t, _)) (nextToken_fst _).symm
  · rw [← hsource]
    exact call_act_eq_iff
  · rw [← hsource]
    exact of_call_value_error h

end Cursor

end FieldMapping
