import FieldMapping.Proofs.Grammar.Parsing
import FieldMapping.Proofs.Online.Reading

/-!
# Parsing one character at a time

The steps of a pass lead to the same as the characters that they take (`resume_eq_stepResult`), and
so does the whole pass. Behind the end of a statement the pass leaves the separators to its next
step; the state there is the one behind the separators.
-/

namespace FieldMapping.Online

open Text Scan Grammar

variable {limit : Nat} {w : Walk} {s t r : List Char} {o : Operator}

/-! ### Statements -/

/-- What a document is read as in which the pass goes on with `s`. -/
def resume (limit : Nat) (w : Walk) (s : List Char) : Result :=
  read limit ⟨w, if w.ended = true then .behind else .due .name⟩ s

/-- What a step of the pass leads to. -/
def stepResult (limit : Nat) : Step → Result
  | .next w s => resume limit w s
  | .done outcome => outcome.result.mapError fun f => (f.cause, f.place)

/-- Where a statement is due, the name of one is due. -/
theorem resume_due (h : w.ended = false) :
    resume limit w s = read limit ⟨w, .due .name⟩ s := by
  rw [resume, h]
  rfl

/-- Behind the end of a statement, the reader is there too. -/
theorem resume_behind (h : w.ended = true) : resume limit w s = read limit ⟨w, .behind⟩ s := by
  rw [resume, h]
  rfl

/-- Separators behind the end of a statement can be left out. -/
theorem read_behind_skips (h : Skips Walk.isSeparating s t) :
    read limit ⟨w, .behind⟩ s = read limit ⟨w, .behind⟩ t := by
  obtain ⟨u, rfl, hu, -⟩ := h
  exact read_of_stays fun c hc => next_behind_separating (hu c hc)

/-- The end of the text between two statements. -/
theorem finish_eq (w : Walk) : (finish w).mapError (·, []) =
    stepResult limit (.done (w.finish 0)) := by
  rw [finish, stepResult, Walk.finish]
  cases w.blocks <;> rfl

/-- A statement that ends in front of a brace, a comma or a line feed ends there for the next
step. -/
theorem resume_ended (limit : Nat) (w : Walk) (h : w.ended = true)
    (hs : significant s = o.char :: t) :
    resume limit w s = proceed limit (State.next limit ⟨w, .behind⟩ o.char) o.char t := by
  rw [resume_behind h, read_significant rfl, hs, read_cons]

/-- What follows the start of a statement leads to what the pass makes of it. Only where the
statement ends do the two part: the pass stops in front of the separator, the reader is already
behind it. -/
theorem afterHead_eq (name : String) (origin : Option Origin) (s : List Char) :
    afterHead limit w name origin s = stepResult limit (match nextToken s with
      | (.operator .openBrace, r) =>
        if w.depth 0 < limit then .next (w.openBlock name origin) r
        else .done (w.stop 0 (.here (.tooDeep limit) r))
      | (.operator .closeBrace, _) | (.operator .comma, _) | (.operator .newline, _) =>
        .next (w.add name origin true) s
      | (_, r) => .next (w.add name origin false) r) := by
  rw [afterHead]
  rcases significant_cases s with ⟨h, hnext⟩ | ⟨o, t, h, hnext⟩ | ⟨c, t, h, hc, hblank, hnext⟩
  · rw [h, hnext]
    rfl
  · rw [h, hnext]
    dsimp only
    rw [behindHead, Token.ofChar_char]
    -- so for the three signs that end a statement, the next step is looked at as well
    have hended := resume_ended limit (w.add name origin true) rfl h
    cases o with
    | openBrace =>
      dsimp only
      split <;> rfl
    | closeBrace => exact hended.symm
    | comma => exact hended.symm
    | newline => exact hended.symm
    | _ => rfl
  · rw [h, hnext]
    dsimp only
    rw [behindHead, hc]
    -- no operator: the next statement starts with `c`
    have hop : isOperator c = false := isOperator_of_ofChar hc
    have hn : c ≠ '\n' := by
      rintro rfl
      cases hop
    have hspace : isSpace c = false := by simpa [isBlank, hn] using hblank
    have hstart : startAtom (w.add name origin false) .name c =
        .ok ⟨w.add name origin false, .atom .name [c]⟩ := if_neg (by simp [hop])
    change _ = resume limit (w.add name origin false) (c :: t)
    rw [resume_due rfl, read_cons, next_due hspace, hstart]

/-- Behind its name, a statement goes on with its origin. -/
theorem behindAtom_name {name : String} (h : value s = .ok (name, r)) (hne : name ≠ "") :
    behindAtom limit w .name name r = andThen (Origin.readOptional r)
      (afterHead limit (w.visit 0 name) name) := by
  rcases stops_of_value h with rfl | ⟨o, t, rfl⟩
  · rw [behindAtom, finishAtom, if_neg hne]
    rfl
  · rw [behindAtom, endAtom, Token.ofChar_char, Origin.readOptional, nextToken_char_cons]
    cases o with
    | colon =>
      change read limit _ t = andThen (_ >>= _) _
      rw [read_origin, andThen_bind]
      rfl
    | _ => exact (afterHead_char ..).symm

/-- Taking a statement in one step of the pass leads to what its characters lead to. -/
theorem takeStatement_eq (w : Walk) (s : List Char) : read limit ⟨w, .due .name⟩ s =
    stepResult limit (w.takeStatement limit 0 s) := by
  rw [read_due, Walk.takeStatement]
  cases hname : value s with
  | error f => rfl
  | ok p =>
    obtain ⟨name, r⟩ := p
    rw [andThen_ok]
    dsimp only
    split <;> rename_i hempty
    · -- the end of the text, where a name is missing
      subst hempty
      rcases Grammar.value_eq_ok_iff.1 hname with ha | ⟨-, -, rfl⟩
      · exact absurd rfl ha.ne_empty
      · exact finish_eq w
    · -- a name has been read, and its origin is next
      rw [behindAtom_name hname hempty]
      cases Origin.readOptional r with
      | error f => rfl
      | ok q => exact afterHead_eq name q.1 q.2

/-! ### The pass -/

/-- Behind the end of a statement and its separators, the next one starts. -/
theorem read_behind (hs : ∀ c ∈ s.head?, Walk.isSeparating c = false)
    (hbrace : s.head? ≠ some '}') :
    read limit ⟨w, .behind⟩ s = read limit ⟨w, .due .name⟩ s := by
  cases s with
  | nil => rfl
  | cons c s =>
    have hc : Walk.isSeparating c = false := hs c rfl
    have hspace : isSpace c = false := by
      simp only [Walk.isSeparating, Bool.or_eq_false_iff] at hc
      exact hc.1
    have hne : c ≠ '}' := by
      rintro rfl
      exact hbrace rfl
    rw [read_cons, read_cons, next_behind hc hne, next_due hspace]

/-- A block that has been closed is the end of its statement. -/
theorem ended_closeBlock? {w' : Walk} (h : w.closeBlock? = some w') : w'.ended = true := by
  unfold Walk.closeBlock? at h
  split at h
  · cases h
  · cases h
    rfl

/-- A step of the pass leads to the same as the characters that it takes. -/
theorem resume_eq_stepResult (w : Walk) (s : List Char) :
    resume limit w s = stepResult limit (w.step limit 0 s) := by
  rcases step_cases limit 0 w s with ⟨hw, hstep⟩ | ⟨hw, t, hskip, hbrace, hstep⟩ | ⟨hw, r, hskip⟩
  · -- a statement is due right here
    rw [resume_due hw, hstep, takeStatement_eq]
  · -- a statement is due behind separators
    have ht : ∀ c ∈ t.head?, Walk.isSeparating c = false := by
      obtain ⟨-, -, -, ht⟩ := hskip
      exact ht
    rw [resume_behind hw, hstep, read_behind_skips hskip, read_behind ht hbrace, takeStatement_eq]
  · -- a brace comes behind separators
    rw [resume_behind hw, step_of_closeBrace hw hskip, read_behind_skips hskip, read_cons,
      next_behind_closeBrace, closeBlock]
    cases hclose : w.closeBlock? with
    | none =>
      -- no block is open, and the brace is what does not fit
      have hnext : nextToken ('}' :: r) = (.operator .closeBrace, r) :=
        nextToken_char_cons (o := .closeBrace)
      dsimp only
      rw [unexpected, hnext]
      rfl
    | some w' => exact (resume_behind (ended_closeBlock? hclose)).symm

/-- The pass leads to the same as the characters, taken one at a time. -/
theorem run_result (limit : Nat) (w : Walk) (s : List Char) :
    (w.run limit 0 s).result.mapError (fun f => (f.cause, f.place)) = resume limit w s := by
  -- along the pass, where every step is an equation
  fun_induction Walk.run limit 0 w s with
  | case1 w s w' r h ih => rw [ih, resume_eq_stepResult w s, h, stepResult]
  | case2 w s outcome h => rw [resume_eq_stepResult w s, h, stepResult]

/-- A parse reports what the reader that takes one character at a time reports. -/
theorem parse_eq_read (source : String) (limit : Nat) :
    parse source limit = (read limit start source.toList).mapError fun (cause, r) =>
      .ofOffset cause source.toList (byteSize source.toList - byteSize r) := by
  have h := run_result limit {} source.toList
  change _ = read limit start source.toList at h
  rw [← h]
  change (Walk.run limit 0 {} source.toList).result.mapError _ = _
  cases (Walk.run limit 0 {} source.toList).result <;> rfl

/-- The two report the same statements or the same cause. -/
theorem mapError_cause_parse (source : String) (limit : Nat) :
    (parse source limit).mapError (·.cause) =
      (read limit start source.toList).mapError Prod.fst := by
  rw [parse_eq_read]
  cases read limit start source.toList <;> rfl

/-- A parse gives the statements that the reader gives. -/
theorem parse_eq_ok_iff_read {source : String} {ts : List Statement} :
    parse source limit = .ok ts ↔ read limit start source.toList = .ok ts := by
  rw [parse_eq_read, mapError_eq_ok_iff]

/-- A text is refused where the reader refuses it. -/
theorem exists_parse_eq_error {source : String} {cause : Cause}
    (h : read limit start source.toList = .error (cause, r)) : ∃ e,
    parse source limit = .error e ∧ e.cause = cause ∧
      e.offset + byteSize r = byteSize source.toList := by
  obtain ⟨before, hsource⟩ := suffix_of_read h
  have hparse := parse_eq_read source limit
  rw [h] at hparse
  -- the place is told by what is unread there, the offset by what stands in front of it
  have hplace : byteSize source.toList - byteSize r = byteSize before := by
    simp [← hsource]
  refine ⟨_, hparse, rfl, ?_⟩
  dsimp only
  rw [hplace, ← hsource, SyntaxError.ofOffset, takeBytes_byteSize_append, byteSize_append]

/-- What a parse refuses, the reader refuses, for the same cause and at the same place. -/
theorem exists_read_of_parse {source : String} {e : SyntaxError}
    (h : parse source limit = .error e) : ∃ r,
    read limit start source.toList = .error (e.cause, r) ∧
      e.offset + byteSize r = byteSize source.toList := by
  have hread := h
  rw [parse_eq_read] at hread
  obtain ⟨⟨cause, r⟩, hr, -⟩ := mapError_eq_error_iff.1 hread
  obtain ⟨e', he', hcause, hoffset⟩ := exists_parse_eq_error hr
  cases h.symm.trans he'
  exact ⟨r, by rw [hr, hcause], hoffset⟩

end FieldMapping.Online
