import FieldMapping.Proofs.Grammar.Failing
import FieldMapping.Proofs.Text.Boundaries

/-!
# What an error says about the text

An error reports a cause at a place. Read against the text before the place and behind it, every
cause makes a statement about the source, and the statement is true (`Cause.HoldsAt`): the token
that is complained about is the one that stands there, the literal that is not closed is open there,
the block that lies too deep opens there.

The place is what a broken text leaves unread, so the text before it is what the rules in front of
it have read. A broken rule that looks at nothing but its own text is told what stands in front of
it: a value stands behind a colon, a parenthesis or a comma (`Val.Broken.holds`).
-/

namespace FieldMapping

open Text Grammar

/-! ### What causes say -/

/-- What a cause says about the text `before` and `after` the place where it is reported. -/
def Cause.HoldsAt (limit : Nat) (before after : List Char) : Cause → Prop
  | .unexpected text =>
    text = (Token.ofHead after).display ∧ (text = Token.endOfInput.display ↔ after = [])
  | .missingValue => after = [] ∧ lastVisible before = some ':'
  | .unclosedQuote q => after = [] ∧ ∃ u body, before = u ++ q :: body ∧ q ∉ body ∧
      lastVisible u ∈ [some ':', some '(', some ',']
  | .tooDeep n => n = limit ∧ before.getLast? = some '{'

/-- A token that is a character is not displayed as the end of the input is. -/
theorem Token.display_eq_endOfInput_iff {r : List Char} :
    (Token.ofHead r).display = Token.endOfInput.display ↔ r = [] := by
  cases r with
  | nil => simp
  | cons c r =>
    -- a character is displayed with at most two characters, the end of the input with more
    have hlength : (Token.ofChar c).display.length ≤ 2 := by
      unfold Token.ofChar
      cases Operator.ofChar? c with
      | none => simp [Token.display]
      | some o =>
        show (Token.operator o).display.length ≤ 2
        cases o <;> decide
    simp only [Token.ofHead_cons, reduceCtorEq, iff_false]
    intro h
    rw [h] at hlength
    exact absurd hlength (by decide)

namespace Grammar

variable {s t u r front : List Char} {cause : Cause} {limit : Nat} {o : Operator}

/-! ### What is left is an end of the text -/

/-- What is left behind skipped characters is an end of the text. -/
theorem Skips.suffix {p : Char → Bool} (h : Skips p s t) : t <:+ s := by
  obtain ⟨u, rfl, -, -⟩ := h
  exact List.suffix_append ..

theorem Sign.suffix (h : Sign o s t) : t <:+ s :=
  (List.suffix_cons _ _).trans (Skips.suffix h)

/-- What is left behind an atom is an end of the text. -/
theorem Atom.suffix {a : String} (h : Atom s a t) : t <:+ s := by
  obtain ⟨run, hs, -⟩ := h
  exact (List.suffix_append ..).trans hs.suffix

theorem Literal.suffix {a : String} (h : Literal s a t) : t <:+ s := by
  obtain ⟨q, body, -, -, rfl, -⟩ := h
  exact ⟨q :: body ++ [q], by simp⟩

/-- What is left behind a value is an end of the text. -/
theorem Val.suffix {v : Value} (h : Val s v t) : t <:+ s := by
  cases h with
  | literal hs ha => exact ha.suffix.trans hs.suffix
  | plain hq ha hno => exact ha.suffix
  | indexed hq hbase ho hindex hc =>
    exact hc.suffix.trans (hindex.suffix.trans (ho.suffix.trans hbase.suffix))

/-- What is left behind parameters is an end of the text. -/
theorem Params.suffix {ps : List Param} (h : Params s ps t) : t <:+ s := by
  induction h with
  | key hk hr => exact hr.suffix.trans hk.suffix
  | last hk hc hv hr => exact hr.suffix.trans (hv.suffix.trans (hc.suffix.trans hk.suffix))
  | more hk hc hv hy hz _ ih =>
    exact ih.trans (hz.suffix.trans
      (hy.suffix.trans (hv.suffix.trans (hc.suffix.trans hk.suffix))))

/-- What is left behind arguments is an end of the text. -/
theorem Args.suffix {vs : List Value} (h : Args s vs t) : t <:+ s := by
  induction h with
  | last hv hr => exact hr.suffix.trans hv.suffix
  | more hv hu hz _ ih => exact ih.trans (hz.suffix.trans (hu.suffix.trans hv.suffix))

/-- An optional part leaves an end of the text if its rule does. -/
theorem Optional.suffix {α : Type} {R : List Char → α → List Char → Prop} {a : Option α}
    (hR : ∀ {t b}, R t b r → r <:+ t) (h : Optional o R s a r) : r <:+ s := by
  cases h with
  | present hs hb => exact (hR hb).trans hs.suffix
  | absent hno => exact List.suffix_refl _

theorem Stage.suffix {p : Processor} (h : Stage s p t) : t <:+ s := by
  cases h with
  | named ha hargs => exact (hargs.suffix Args.suffix).trans ha.suffix
  | nameless hs => exact hs.suffix

/-- What is left behind a pipeline is an end of the text. -/
theorem Stages.suffix {ps : List Processor} (h : Stages s ps t) : t <:+ s := by
  induction h with
  | last hp hno => exact hp.suffix
  | more hp hbar _ ih => exact ih.trans (hbar.suffix.trans hp.suffix)

/-- What is left behind an origin is an end of the text. -/
theorem Source.suffix {origin : Origin} (h : Source s origin t) : t <:+ s := by
  cases h with
  | field ha hc => exact ha.suffix
  | type ha hc hps hpipe hends =>
    exact (hpipe.suffix Stages.suffix).trans ((hps.suffix Params.suffix).trans ha.suffix)

/-- What is left behind the start of a statement is an end of the text. -/
theorem Head.suffix {name : String} {origin : Option Origin} (h : Head s name origin t) :
    t <:+ s := by
  obtain ⟨u, ha, ho⟩ := h
  exact (ho.suffix Source.suffix).trans ha.suffix

theorem RunsOn.suffix (h : RunsOn s t) : t <:+ s := by
  rcases h with ⟨o, -, ho⟩ | ⟨hs, -⟩
  · exact ho.suffix
  · exact hs.suffix

/-! ### Broken rules -/

/-- A rule that is broken at `r` in `s` says what is true of the text, if `front` stands in front of
`s`. -/
def HoldsBehind (limit : Nat) (front s : List Char) (cause : Cause) (r : List Char) : Prop :=
  ∃ v, s = v ++ r ∧ cause.HoldsAt limit (front ++ v) r

/-- A rule that needs not know what stands in front of it may be read anywhere. -/
theorem HoldsBehind.of_suffix (hs : t <:+ s) (h : ∀ front, HoldsBehind limit front t cause r) :
    HoldsBehind limit front s cause r := by
  obtain ⟨w, rfl⟩ := hs
  obtain ⟨v, rfl, hv⟩ := h (front ++ w)
  exact ⟨w ++ v, by simp, by simpa using hv⟩

/-- Behind an operator, the operator is what stands in front. -/
theorem HoldsBehind.of_sign (hs : t <:+ s) (ho : Sign o t u) (hc : isSpace o.char = false)
    (h : ∀ front, lastVisible front = some o.char → HoldsBehind limit front u cause r) :
    HoldsBehind limit front s cause r := by
  refine .of_suffix hs fun front => ?_
  obtain ⟨w, rfl, -, -⟩ := ho
  obtain ⟨v, rfl, hv⟩ := h (front ++ w ++ [o.char]) (lastVisible_concat hc)
  exact ⟨w ++ o.char :: v, by simp, by simpa using hv⟩

/-- White space does not count as what stands in front. -/
theorem HoldsBehind.of_skips (hs : Skips isSpace s t)
    (h : ∀ front', lastVisible front' = lastVisible front → HoldsBehind limit front' t cause r) :
    HoldsBehind limit front s cause r := by
  obtain ⟨w, rfl, hw, -⟩ := hs
  obtain ⟨v, rfl, hv⟩ := h (front ++ w) (lastVisible_append_space hw)
  exact ⟨w ++ v, by simp, by simpa using hv⟩

/-- The place of a cause that says what is true is in the text. -/
theorem HoldsBehind.suffix (h : HoldsBehind limit front s cause r) : r <:+ s := by
  obtain ⟨v, rfl, -⟩ := h
  exact List.suffix_append ..

/-- A complaint about the token at a place is true of every place. -/
theorem holdsBehind_found (h : r <:+ s) : HoldsBehind limit front s (found r) r := by
  obtain ⟨v, rfl⟩ := h
  exact ⟨v, rfl, rfl, Token.display_eq_endOfInput_iff⟩

/-- A missing atom is a complaint about the token that stands there. -/
theorem Atom.Missing.holds (h : Atom.Missing s cause r) : HoldsBehind limit front s cause r := by
  obtain ⟨hs, -, rfl⟩ := h
  exact holdsBehind_found hs.suffix

/-- A missing operator is a complaint about the token that stands there. -/
theorem Sign.Missing.holds {os : List Operator} (h : Sign.Missing os s cause r) :
    HoldsBehind limit front s cause r := by
  obtain ⟨-, hs, rfl⟩ := h
  exact holdsBehind_found hs.suffix

/-- What is said of a broken value is true, if a sign that introduces a value stands in front of it.
Only an open literal needs the sign. -/
theorem Val.Broken.holds (h : Val.Broken s cause r)
    (hfront : lastVisible front ∈ [some ':', some '(', some ',']) :
    HoldsBehind limit front s cause r := by
  cases h with
  | quote hs hq hbody =>
    -- the blanks in front of the quote hide nothing of what stands in front of them
    obtain ⟨w, rfl, hw, -⟩ := hs
    refine ⟨_, (List.append_nil _).symm, rfl, front ++ w, _, by simp, hbody, ?_⟩
    rwa [lastVisible_append_space fun c hc => isSpace_of_isBlank (hw c hc)]
  | base hq h => exact h.holds
  | index hq hbase ho h => exact .of_suffix (ho.suffix.trans hbase.suffix) fun _ => h.holds
  | bracket hq hbase ho hindex h =>
    exact .of_suffix (hindex.suffix.trans (ho.suffix.trans hbase.suffix)) fun _ => h.holds

/-- What is said of broken parameters is true: each value in them stands behind its own colon. -/
theorem Params.Broken.holds (h : Params.Broken s cause r) : HoldsBehind limit front s cause r := by
  -- on the broken parameters, whatever stands in front of them
  induction h generalizing front with
  | key h => exact h.holds
  | sign hk h => exact .of_suffix hk.suffix fun _ => h.holds
  | value hk hc h =>
    exact .of_sign hk.suffix hc rfl fun _ hfront => h.holds (by simp [hfront, Operator.char])
  | behind hk hc hv h =>
    exact .of_suffix (hv.suffix.trans (hc.suffix.trans hk.suffix)) fun _ => h.holds
  | more hk hc hv hy hz _ ih =>
    exact .of_suffix (hz.suffix.trans
      (hy.suffix.trans (hv.suffix.trans (hc.suffix.trans hk.suffix)))) fun _ => ih

/-- What is said of broken arguments is true, if a sign that introduces a value stands in front of
them. -/
theorem Args.Broken.holds (h : Args.Broken s cause r)
    (hfront : lastVisible front ∈ [some ':', some '(', some ',']) :
    HoldsBehind limit front s cause r := by
  induction h generalizing front with
  | value h => exact h.holds hfront
  | behind hv h => exact .of_suffix hv.suffix fun _ => h.holds
  | more hv hu hz _ ih =>
    -- the comma stands in front of the values behind it
    refine .of_sign hv.suffix hu rfl fun front hfront => .of_skips hz fun front' heq => ih ?_
    simp [heq, hfront, Operator.char]

/-- What is said of a broken pipeline is true: arguments stand behind their own parenthesis. -/
theorem Stages.Broken.holds (h : Stages.Broken s cause r) : HoldsBehind limit front s cause r := by
  induction h generalizing front with
  | name h hr => exact h.holds
  | args ha ho h =>
    exact .of_sign ha.suffix ho rfl fun _ hfront => h.holds (by simp [hfront, Operator.char])
  | more hp hbar _ ih => exact .of_suffix (hbar.suffix.trans hp.suffix) fun _ => ih

/-- What is said of a broken origin is true behind a colon, which is the one a missing value
lacks. -/
theorem Source.Broken.holds (h : Source.Broken s cause r) (hfront : lastVisible front = some ':') :
    HoldsBehind limit front s cause r := by
  cases h with
  | name h hr => exact h.holds
  | missing hs => exact .of_skips hs fun _ heq => ⟨[], rfl, rfl, by simp [heq, hfront]⟩
  | params ha hname ho h => exact .of_suffix (ho.suffix.trans ha.suffix) fun _ => h.holds
  | stages ha hname hps hbar h =>
    exact .of_suffix (hbar.suffix.trans ((hps.suffix Params.suffix).trans ha.suffix)) fun _ =>
      h.holds
  | behind ha hname h hr => exact .of_suffix ha.suffix fun _ => h.holds

/-- What is said of a broken start of a statement is true: an origin stands behind its own colon. -/
theorem Head.Broken.holds (h : Head.Broken s cause r) : HoldsBehind limit front s cause r := by
  cases h with
  | name h hr => exact h.holds
  | origin ha hc h => exact .of_sign ha.suffix hc rfl fun _ hfront => h.holds hfront

/-- What is said of a broken text is true, at any depth and wherever the text stands. -/
theorem Statements.Broken.holds {n : Nat} {e : Bool} (h : Statements.Broken limit n e s cause r) :
    HoldsBehind limit front s cause r := by
  induction h generalizing front with
  | head h => exact h.holds
  | tooDeep hhead hb hlimit =>
    refine .of_suffix hhead.suffix fun front => ?_
    -- the place is behind the brace, so the brace is the last character in front of it
    obtain ⟨w, rfl, -, -⟩ := hb
    exact ⟨w ++ ['{'], by simp [Operator.char], rfl, by simp⟩
  | unclosed hs => exact holdsBehind_found hs.suffix
  | unopened hs =>
    -- the brace that closes nothing is the token that is found
    exact holdsBehind_found hs.suffix
  | separate hs hne _ ih => exact .of_suffix hs.suffix fun _ => ih
  | block hhead hb hlimit _ ih => exact .of_suffix (hb.suffix.trans hhead.suffix) fun _ => ih
  | close hs _ ih => exact .of_suffix ((List.suffix_cons ..).trans hs.suffix) fun _ => ih
  | ended hhead hends _ ih => exact .of_suffix hhead.suffix fun _ => ih
  | runOn hhead hr _ ih => exact .of_suffix (hr.suffix.trans hhead.suffix) fun _ => ih

/-- The place of an error is in the text. -/
theorem Statements.Broken.suffix {n : Nat} {e : Bool}
    (h : Statements.Broken limit n e s cause r) : r <:+ s := by
  have hholds : HoldsBehind limit [] s cause r := h.holds
  exact hholds.suffix

end Grammar

/-! ### Errors -/

variable {source : String} {limit : Nat} {e : SyntaxError}

/-- A report at a place between two characters has that place for its offset. -/
theorem offset_ofOffset_append (cause : Cause) (before after : List Char) :
    (SyntaxError.ofOffset cause (before ++ after) (byteSize before)).offset = byteSize before := by
  rw [SyntaxError.ofOffset, takeBytes_byteSize_append]

/-- An error is the report on a broken text, at the place where it breaks off. -/
theorem broken_of_parse (h : parse source limit = .error e) : ∃ before after,
    source.toList = before ++ after ∧ e.offset = byteSize before ∧
      Statements.Broken limit 0 false source.toList e.cause after ∧
      e = .ofOffset e.cause source.toList (byteSize before) := by
  obtain ⟨cause, after, hbroken, rfl⟩ := parse_eq_error_iff.1 h
  obtain ⟨before, hsource⟩ := hbroken.suffix
  have hplace : byteSize source.toList - byteSize after = byteSize before := by
    simp [← hsource]
  rw [hplace]
  exact ⟨before, after, hsource.symm, by rw [← hsource, offset_ofOffset_append], hbroken, rfl⟩

/-- Every error stands at a place between two characters of the source, or at one of its ends, and
what it says holds of the text before that place and the text behind it. -/
theorem holdsAt_of_parse (h : parse source limit = .error e) : ∃ before after,
    source.toList = before ++ after ∧ e.offset = byteSize before ∧
      (e.offset = source.utf8ByteSize ↔ after = []) ∧ e.cause.HoldsAt limit before after := by
  obtain ⟨before, after, hsource, hoffset, hbroken, -⟩ := broken_of_parse h
  have hholds : HoldsBehind limit [] source.toList e.cause after := hbroken.holds
  -- one end of the text has one text in front of it
  obtain ⟨v, hv, hholds⟩ := hholds
  obtain rfl : before = v := List.append_cancel_right (hsource.symm.trans hv)
  exact ⟨before, after, hsource, hoffset, hoffset ▸ byteSize_eq_iff hsource, hholds⟩

/-- The token that is reported is the one that stands at the offset, in the middle of a text and
behind a character of two bytes as well. -/
theorem holdsAt_of_stray_bracket : ∃ e before after, parse "é: T(k: x] y), b" = .error e ∧
    "é: T(k: x] y), b".toList = before ++ after ∧ e.offset = byteSize before ∧
    (e.offset = "é: T(k: x] y), b".utf8ByteSize ↔ after = []) ∧
    e.cause.HoldsAt defaultLimit before after ∧
    e.cause = .unexpected "]" ∧ after = "] y), b".toList := by
  have h : parse "é: T(k: x] y), b" =
      .error (.ofOffset (.unexpected "]") "é: T(k: x] y), b".toList 10) := by decide +kernel
  obtain ⟨before, after, hsource, hoffset, hend, hholds⟩ := holdsAt_of_parse h
  have hsplit : before ++ after = "é: T(k: x".toList ++ "] y), b".toList := hsource.symm
  -- ten bytes, but nine characters
  have hsize : byteSize before = byteSize "é: T(k: x".toList :=
    hoffset.symm.trans (by decide +kernel)
  obtain rfl := eq_of_byteSize_eq hsplit hsize
  have hafter : after = "] y), b".toList := List.append_cancel_left hsplit
  exact ⟨_, _, after, h, hsource, hoffset, hend, hholds, rfl, hafter⟩

end FieldMapping
