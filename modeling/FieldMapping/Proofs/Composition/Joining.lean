import FieldMapping.Proofs.Online.Literal

/-!
# Documents one behind the other

Two documents with a line feed between them are one document, of the statements of both
(`parse_join`).

The first of them may end within a name, a field or a type, behind a list, a pipeline or a block,
behind separators or before its first statement. In each of these states a line feed leads to where
the next statement may start, behind the statements that the end of the text would have led to
(`next_newline_of_ending`). One state is different: behind a bar, the end of the text leads to a
processor without a name, while a line feed is white space in front of the name.

What the second document is read as does not depend on the statements in front of it
(`read_due_of_parse`), and where it may follow separators as well, it goes on from them as from its
start (`read_behind_of_due`).
-/

namespace FieldMapping

/-- The processor that the last statement ends with, if it ends with one. -/
def Statement.lastProcessor? (ts : List Statement) : Option Processor := do
  let t ← ts.getLast?
  let ref ← t.type?
  let ps ← ref.processors
  ps.getLast?

namespace Online

open Text Scan Grammar

variable {limit : Nat} {w : Walk} {σ σ' : State} {s : List Char} {c : Char}
  {ts ts' : List Statement}

/-! ### Atoms that have started -/

/-- An atom that has started has a character that is no white space. -/
def Mode.Begun : Mode → Prop
  | .atom _ run => ∃ c ∈ run, isSpace c = false
  | _ => True

theorem begun_start : start.mode.Begun := trivial

/-- An atom starts with a character that is no white space, and no character takes that away. -/
theorem begun_of_next (hσ : σ.mode.Begun) (h : σ.next limit c = .ok σ') : σ'.mode.Begun := by
  obtain ⟨w, m⟩ := σ
  obtain ⟨w', m'⟩ := σ'
  cases m' with
  | atom role run =>
    -- where the step starts an atom, the character it starts with is the one
    obtain ⟨-, hwithin, hrun⟩ := apart_of_next h rfl
    by_cases hc : isSpace c = false
    · exact ⟨c, hrun role run rfl, hc⟩
    · -- a line feed is an operator, so `c` is a blank, and it starts nothing
      have hblank : isBlank c = true := by
        have hne : c ≠ '\n' := by
          rintro rfl
          cases hwithin rfl
        simpa [isBlank, hne] using hc
      -- a blank goes on with an atom that has started, or it changes nothing
      by_cases hm : m.isWithin = true
      · cases m with
        | atom role₀ run₀ =>
          rw [next_atom (isOperator_of_isBlank hblank)] at h
          cases h
          obtain ⟨d, hd, hspace⟩ := hσ
          exact ⟨d, List.mem_append_left _ hd, hspace⟩
        | literal items q body =>
          unfold State.next at h
          dsimp only at h
          split at h <;> cases h
        | _ => cases hm
      · rw [next_of_isBlank (by simpa using hm) hblank] at h
        cases h
        exact hσ
  | _ => trivial

/-- Wherever a text leads to from its start, an atom that has started there has such a character. -/
theorem begun_of_feed (hσ : σ.mode.Begun) (h : feed limit σ s = .ok σ') : σ'.mode.Begun := by
  induction s generalizing σ with
  | nil =>
    cases h
    exact hσ
  | cons c s ih =>
    cases hc : σ.next limit c with
    | ok σ₁ =>
      rw [feed_cons_ok hc] at h
      exact ih (begun_of_next hσ hc) h
    | error cause =>
      rw [feed_cons_error hc] at h
      cases h

/-- An atom that has started is not empty when it ends. -/
theorem ofList_trim_ne_empty {run : List Char} (h : ∃ c ∈ run, isSpace c = false) :
    String.ofList (trim run) ≠ "" := by
  obtain ⟨c, hc, hspace⟩ := h
  intro he
  have hall := trim_eq_nil_iff.1 (String.ofList_eq_empty_iff.1 he) c hc
  rw [hspace] at hall
  cases hall

/-! ### The end of a document and a line feed -/

/-- A pipeline that ends where its next processor is due ends with one that has no name. -/
theorem lastProcessor?_of_finish {p : Pipeline} {processor : Processor}
    (h : finish (w.add p.statement (some (p.add processor).origin) false) = .ok ts) :
    Statement.lastProcessor? ts = some processor := by
  obtain ⟨-, rfl⟩ := finish_eq_ok_iff.1 h
  simp [Statement.lastProcessor?, Walk.add, Statement.type?, Pipeline.origin, Pipeline.add]

/-- Where the text may end, a line feed ends the statement, and another one may start. -/
theorem next_newline_of_ending (limit : Nat) (hσ : σ.mode.Begun) (h : σ.ending = .ok ts)
    (hts : ∀ p ∈ Statement.lastProcessor? ts, p.name ≠ "") : ∃ w m,
    σ.next limit '\n' = .ok ⟨w, m⟩ ∧ (m = .behind ∨ m = .due .name) ∧ finish w = .ok ts := by
  obtain ⟨w, m⟩ := σ
  -- behind the start of a statement, the line feed adds the statement that the end would add
  have hhead : ∀ {w : Walk} {name : String} {origin : Option Origin},
      finish (w.add name origin false) = .ok ts → ∃ w' m,
        behindHead limit w name origin '\n' = .ok ⟨w', m⟩ ∧ (m = .behind ∨ m = .due .name) ∧
          finish w' = .ok ts :=
    fun h => ⟨_, _, rfl, .inl rfl, h⟩
  cases m with
  | due role =>
    cases role with
    | name => exact ⟨w, .due .name, rfl, .inr rfl, h⟩
    | processor p =>
      -- the processor is due, so the end of the text leaves one without a name
      exact absurd rfl (hts _ (lastProcessor?_of_finish h))
    | _ => cases h
  | atom role run =>
    have ha : String.ofList (trim run) ≠ "" := ofList_trim_ne_empty hσ
    change finishAtom w role _ = .ok ts at h
    rw [next_atom_operator rfl]
    cases role with
    | name =>
      rw [finishAtom, if_neg ha] at h
      exact hhead h
    | origin statement =>
      rw [finishAtom, if_neg ha] at h
      rw [endAtom]
      split at h <;> rename_i hfield
      · rw [if_pos hfield]
        exact hhead h
      · rw [if_neg hfield]
        exact hhead h
    | processor p => exact hhead h
    | _ => cases h
  | behindList p => exact hhead h
  | behind => exact ⟨w, .behind, rfl, .inl rfl, h⟩
  | _ => cases h

/-! ### A document behind other statements -/

/-- A document is read in the same way behind statements that have ended, at the root. -/
theorem read_due_of_parse {source : String} (hw : finish w = .ok ts)
    (h : parse source limit = .ok ts') :
    read limit ⟨w, .due .name⟩ source.toList = .ok (ts ++ ts') := by
  obtain ⟨hblocks, rfl⟩ := finish_eq_ok_iff.1 hw
  obtain ⟨hdoc, hle⟩ := document_of_parse h
  -- where a statement is due, it does not matter whether the last one has ended
  have hended : read limit ⟨w, .due .name⟩ source.toList =
      read limit ⟨{ w with ended := false }, .due .name⟩ source.toList := by
    rw [takeStatement_eq, takeStatement_eq]
    rfl
  have hdepth : w.depth 0 = 0 := by rw [Walk.depth, hblocks, List.length_nil]
  -- the derivation of the document drives the pass from this state as from its first
  have htakes : Takes limit 0 { w with ended := false } source.toList ts' [] .root :=
    takes_of_statements hdoc _ rfl (show w.depth 0 + Statement.nesting ts' ≤ limit by omega)
  rw [hended, ← resume_due rfl, ← run_result, htakes hblocks]
  rfl

/-- What can be read as the next statements can be read as such behind separators. -/
theorem read_behind_of_due (h : read limit ⟨w, .due .name⟩ s = .ok ts) :
    read limit ⟨w, .behind⟩ s = .ok ts := by
  have hspace : ∀ c, isSpace c = true → State.next limit ⟨w, .behind⟩ c = .ok ⟨w, .behind⟩ :=
    fun c hc => next_behind_separating (by simp [Walk.isSeparating, hc])
  rw [read_due_trimStart] at h
  rw [read_trimStart hspace, ← h]
  -- no operator comes next, and so neither a comma nor a brace
  have hop : ∀ c ∈ (trimStart s).head?, isOperator c = false := by
    intro c hc
    obtain ⟨r, hr⟩ := List.head?_eq_some_iff.1 hc
    by_contra hop
    rw [hr, read_cons, next_due (isSpace_of_trimStart_eq_cons hr), startAtom,
      if_pos (by simpa using hop)] at h
    cases h
  refine read_behind (fun c hc => ?_) fun hbrace => absurd (hop '}' hbrace) (by decide)
  have hne : c ≠ ',' := by
    rintro rfl
    cases hop _ hc
  simpa [Walk.isSeparating, Operator.char, hne] using isSpace_of_mem_head?_trimStart hc

end Online

open Online

/-- **Joining documents.** Two documents with a line feed between them are parsed as the statements
of the first and those of the second, unless the first ends with a processor that has no name. -/
theorem parse_join {limit : Nat} {u v : String} {ts ts' : List Statement}
    (hu : parse u limit = .ok ts) (hv : parse v limit = .ok ts')
    (hts : ∀ p ∈ Statement.lastProcessor? ts, p.name ≠ "") :
    parse (u ++ "\n" ++ v) limit = .ok (ts ++ ts') := by
  obtain ⟨σ, hfeed, hend⟩ := read_eq_ok_iff.1 (parse_eq_ok_iff_read.1 hu)
  obtain ⟨w, m, hnext, hm, hw⟩ :=
    next_newline_of_ending limit (begun_of_feed begun_start hfeed) hend hts
  have hdue : read limit ⟨w, .due .name⟩ v.toList = .ok (ts ++ ts') := read_due_of_parse hw hv
  rw [parse_eq_ok_iff_read]
  simp only [String.toList_append, List.append_assoc]
  rw [read_append, hfeed]
  change read limit σ ('\n' :: v.toList) = _
  rw [read_cons_ok hnext]
  -- behind separators, or where a statement is due anyway
  rcases hm with rfl | rfl
  · exact read_behind_of_due hdue
  · exact hdue

/-- A pipeline ends at the line feed, and the second document starts behind white space. -/
theorem parse_join_pipeline : ∃ ts ts', parse "a: T | Trim" 1 = .ok ts ∧
    parse " \n b\x7bc,\x7d" 1 = .ok ts' ∧ (∀ p ∈ Statement.lastProcessor? ts, p.name ≠ "") ∧
    parse ("a: T | Trim" ++ "\n" ++ " \n b\x7bc,\x7d") 1 = .ok (ts ++ ts') := by
  have hu : parse "a: T | Trim" 1 =
      .ok [⟨"a", some (.type ⟨"T", none, some [⟨"Trim", []⟩]⟩), none⟩] := by decide +kernel
  have hv : parse " \n b\x7bc,\x7d" 1 = .ok [⟨"b", none, some [⟨"c", none, none⟩]⟩] := by
    decide +kernel
  have hts : ∀ p ∈ Statement.lastProcessor?
      [⟨"a", some (.type ⟨"T", none, some [⟨"Trim", []⟩]⟩), none⟩], p.name ≠ "" := by
    decide +kernel
  exact ⟨_, _, hu, hv, hts, parse_join hu hv hts⟩

/-- Behind a bar, a line feed ends nothing: the second document names the processor. -/
example : parse "a: T |" 1 = .ok [⟨"a", some (.type ⟨"T", none, some [⟨"", []⟩]⟩), none⟩] ∧
    parse "b" 1 = .ok [⟨"b", none, none⟩] ∧ parse ("a: T |" ++ "\n" ++ "b") 1 =
      .ok [⟨"a", some (.type ⟨"T", none, some [⟨"b", []⟩]⟩), none⟩] := by
  decide +kernel

end FieldMapping
