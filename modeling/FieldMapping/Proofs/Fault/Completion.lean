import FieldMapping.Proofs.Fault.Place
import FieldMapping.Proofs.Grammar.Completing

/-!
# Errors are not reported too late

Up to the place of an error, a text may still become a field mapping: what stands before the place
can be completed, unless the error refuses a block for its depth. The start of a statement is
completed as its rules are, and braces close the blocks that are open.

In front of the completion, a list of statements goes on as before (`GoesOn`). Where a statement is
due, that takes a completion that starts as what it replaces does, or with an atom. Where one has
ended, it takes one that ends the statement, too.
-/

namespace FieldMapping

open Text

namespace Grammar

variable {s s' t t' u x y r w : List Char} {cause : Cause} {limit n : Nat} {name : String}
  {origin : Option Origin}

/-! ### Texts that are read to their ends -/

/-- A text that is read to its end without a fault, with `n` blocks open in front of it. -/
def Accepts (limit n : Nat) (e : Bool) (s : List Char) : Prop :=
  PassEnds limit n e s fun outcome => ∃ ts, outcome.result = .ok ts

/-- An empty text is read to its end where a statement is due and no block is open. -/
theorem accepts_nil : Accepts limit 0 false [] := by
  intro w hn he
  have hend : Skips isSpace [] [] := skips_iff.2 rfl
  have hblocks : w.blocks = [] := List.eq_nil_of_length_eq_zero hn
  rw [Walk.run_of_done ((step_statement he).trans (takeStatement_finish hend))]
  exact ⟨w.before.reverse, by simp [Walk.finish, hblocks]⟩

/-- The braces that close `n` blocks. -/
def closers (n : Nat) : List Char :=
  List.replicate n '}'

/-- Closing braces are no separators. -/
theorem isSeparating_of_mem_head?_closers :
    ∀ c ∈ (closers n).head?, Walk.isSeparating c = false := by
  intro c hc
  obtain rfl := List.eq_of_mem_replicate (List.mem_of_mem_head? hc)
  rfl

/-- Behind the end of a statement, the closing braces of the open blocks complete a text. -/
theorem accepts_closers (h : Skips Walk.isSeparating s (closers n)) : Accepts limit n true s := by
  -- on the open blocks: each brace closes the innermost one
  induction n generalizing s with
  | zero => exact PassEnds.separate h (by simp [closers]) accepts_nil
  | succ n ih =>
    exact PassEnds.close h (ih ⟨[], rfl, by simp, isSeparating_of_mem_head?_closers⟩)

/-- Separators, a comma and closing braces complete every list of statements. -/
theorem accepts_comma (hw : ∀ c ∈ w, Walk.isSeparating c = true) :
    Accepts limit n true (w ++ ',' :: closers n) := by
  refine accepts_closers ⟨w ++ [','], by simp, fun c hc => ?_, isSeparating_of_mem_head?_closers⟩
  rcases List.mem_append.1 hc with hc | hc
  · exact hw c hc
  · obtain rfl := List.mem_singleton.1 hc
    rfl

/-- A statement ends in front of separators. -/
theorem endsStatement_of_separating (hw : ∀ c ∈ w, Walk.isSeparating c = true) (z : List Char) :
    EndsStatement (w ++ ',' :: z) := by
  rcases separator_cases hw with hblank | ⟨o, v, ho, hv⟩
  · exact ⟨.comma, z, by simp, w, rfl, hblank, by simp; rfl⟩
  · refine ⟨o, _, ?_, sign_iff.2 (significant_append_of_eq_cons hv)⟩
    rcases ho with rfl | rfl <;> simp

/-- Separators that end a statement hold a character that is no blank. -/
theorem exists_of_endsStatement (h : EndsStatement (w ++ t))
    (ht : ∀ c ∈ t.head?, Walk.isSeparating c = false) (hne : t.head? ≠ some '}') :
    ∃ c ∈ w, isBlank c = false := by
  by_contra hno
  have hw : ∀ c ∈ w, isBlank c = true := by simpa using hno
  have hskip : Skips isBlank (w ++ t) t := by
    refine ⟨w, rfl, hw, fun c hc => Bool.eq_false_iff.2 fun hblank => ?_⟩
    exact Bool.eq_false_iff.1 (ht c hc) (isSeparating_of_isSpace (isSpace_of_isBlank hblank))
  -- the operator that ends the statement comes first in `t`
  obtain ⟨o, r, ho, hr⟩ := h
  obtain rfl := hskip.unique hr
  have hends : ∀ o ∈ [Operator.closeBrace, .comma, .newline],
      o.char = '}' ∨ Walk.isSeparating o.char = true := by decide
  rcases hends o ho with hbrace | hsep
  · exact hne (congrArg some hbrace)
  · simp [ht _ rfl] at hsep

/-! ### Lists of statements -/

/-- A list of statements that goes on with `s` can go on with `s'`, from the fork on with `y`. Where
the flag says that a statement has ended, `s'` ends it as `s` does. -/
def GoesOn (x y : List Char) : Bool → List Char → List Char → Prop
  | false, s, s' => Resumes x y s s'
  | true, s, s' =>
    Forks x y s s' ∧ (EndsStatement s → EndsStatement s' ∧ (Stops s → Stops s'))

/-- A list of statements goes on in front of a late fork, with a statement ended or not. -/
theorem ForksLate.goesOn {e : Bool} (h : ForksLate x y s s') : GoesOn x y e s s' := by
  cases e with
  | false => exact h.resumes
  | true => exact ⟨h.forks, fun hs => ⟨h.endsStatement hs, h.stops⟩⟩

/-- Texts of which one goes on as the other fork. -/
theorem GoesOn.forks {e : Bool} (h : GoesOn x y e s s') : Forks x y s s' := by
  cases e with
  | false => exact Resumes.forks h
  | true => exact h.1

/-- A statement reads the same in front of another text that ends it. -/
theorem Head.fork_ended (h : Head s name origin t) (ht : Forks x y t t') (hne : t ≠ [])
    (hends : EndsStatement t') (hstops : Stops t → Stops t') :
    ∃ s', ForksLate x y s s' ∧ Head s' name origin t' := by
  have htype : EndsType t' := hends.endsType
  obtain ⟨o, u, ho, hu⟩ := hends
  have hcont : ∀ o ∈ [Operator.closeBrace, .comma, .newline], o ∉ continuing := by decide
  exact h.fork ht (hu.follows (hcont o ho) hstops) (fun _ => htype) hne

/-- A statement reads the same in front of a text that goes on without an operator. -/
theorem Head.fork_runsOn (h : Head s name origin t) (hs : Skips isBlank t u)
    (hno : ∀ c ∈ u.head?, isOperator c = false) (hne : u ≠ []) {u' : List Char}
    (hu : Resumes x y u u') :
    ∃ s' t', ForksLate x y s s' ∧ Head s' name origin t' ∧ RunsOn t' u' := by
  have hno' : ∀ c ∈ u'.head?, isOperator c = false := hu.head hno rfl
  have hblank : ∀ c ∈ u.head?, isBlank c = false := by
    obtain ⟨-, -, -, h⟩ := hs
    exact h
  obtain ⟨t', ht, hs'⟩ := hs.fork hu.forks (hu.head hblank rfl)
  -- what follows the statement is an atom, and no rule stops in front of one
  have hstops : ¬ Stops t := by
    intro hstops
    obtain rfl := hstops.eq_of_skips hs
    obtain ⟨c, t, rfl⟩ := List.exists_cons_of_ne_nil hne
    simp [hstops c rfl] at hno
  -- for the same reason a bare type name does not end here
  have htype : ¬ EndsType t := by
    rintro (⟨o, v, -, ho⟩ | hend)
    · exact not_sign_of_skips hs hno ho
    · exact hne (hs.unique hend)
  have hnil : t ≠ [] := by
    rintro rfl
    exact hne (List.suffix_nil.1 hs.suffix)
  obtain ⟨s', hs'', hhead⟩ := h.fork ht ⟨fun h => absurd h hstops, fun o _ v ho =>
    absurd ho (not_sign_of_skips hs' hno')⟩ (fun h => absurd h htype) hnil
  exact ⟨s', t', hs'', hhead, .inr ⟨hs', hno'⟩⟩

/-- The start of a statement is completed by a comma and the braces that close the blocks. -/
theorem Completable.accepts (h : Completable Start .comma s r) :
    ∃ y s', Resumes r y s s' ∧ Accepts limit n false s' := by
  obtain ⟨v, hv⟩ := h
  obtain ⟨s', ⟨name, origin⟩, hs, hhead⟩ := hv (closers n)
  exact ⟨_, s', hs, PassEnds.ended hhead (endsStatement_comma _)
    (accepts_comma (w := []) (by simp))⟩

/-- A text that ends behind the start of a statement is completed where it ends. -/
theorem Head.completes (h : Head s name origin t) (hs : Skips isBlank t []) :
    ∃ y s', Resumes [] y s s' ∧ Accepts limit n false s' := by
  obtain ⟨w, rfl, hw, -⟩ := hs
  rw [List.append_nil] at h
  rcases eq_or_ne w [] with rfl | hne
  · exact h.completable.accepts
  · -- the blanks behind the start of the statement stay where they are, in front of the comma
    have hsep : ∀ c ∈ w, Walk.isSeparating c = true := fun c hc =>
      isSeparating_of_isSpace (isSpace_of_isBlank (hw c hc))
    have hends := endsStatement_of_separating hsep (closers n)
    have hfork : Forks [] (',' :: closers n) w (w ++ ',' :: closers n) := ⟨w, by simp, rfl⟩
    obtain ⟨s', hs, hhead⟩ := h.fork_ended hfork hne hends fun hstops => by
      obtain ⟨c, w, rfl⟩ := List.exists_cons_of_ne_nil hne
      exact hstops
    exact ⟨_, s', hs.resumes, PassEnds.ended hhead hends (accepts_comma hsep)⟩

/-- A text that is broken for another reason than the depth of a block is completed in place of
what it breaks off at. -/
theorem Statements.Broken.completes {e : Bool} (h : Statements.Broken limit n e s cause r)
    (hcause : ∀ l, cause ≠ .tooDeep l) : ∃ y s', GoesOn r y e s s' ∧ Accepts limit n e s' := by
  -- on the derivation, from the place where it breaks off to the start of the text
  induction h with
  | head h => exact h.completable.accepts
  | tooDeep => exact absurd rfl (hcause _)
  | unclosed hs => exact (Head.completable_name hs).accepts
  | unopened hs =>
    obtain ⟨w, rfl, hw, -⟩ := hs
    -- a comma takes the place of the brace that closes nothing
    refine ⟨[','], w ++ [','], ⟨(Forks.refl _ _).append w, fun _ =>
      ⟨endsStatement_of_separating hw [], fun hstops => ?_⟩⟩, accepts_comma hw⟩
    cases w with
    | nil => exact stops_cons .comma []
    | cons c w => exact hstops
  | separate hs hne _ ih =>
    obtain ⟨y, t', ht, hacc⟩ := ih hcause
    obtain ⟨w, rfl, hw, hhead⟩ := hs
    have hne' : t'.head? ≠ some '}' := by
      rcases ht.head?_eq with heq | heq <;> simp [heq, hne]
    refine ⟨y, w ++ t', ⟨ht.forks.append w, fun hends => ?_⟩,
      PassEnds.separate ⟨w, rfl, hw, ht.head hhead rfl⟩ hne' hacc⟩
    -- where the separators end a statement, the texts fork behind one that is no blank
    obtain ⟨c, hc, hblank⟩ := exists_of_endsStatement hends hhead hne
    obtain ⟨a, b, rfl⟩ := List.append_of_mem hc
    have hlate := (ht.forks.append b).late a hblank
    rw [List.append_assoc, List.append_assoc]
    exact ⟨hlate.endsStatement (by simpa using hends), hlate.stops⟩
  | block hhead hb hlimit _ ih =>
    obtain ⟨y, u', hu, hacc⟩ := ih hcause
    obtain ⟨t', ht, hb'⟩ := hb.fork hu.forks
    obtain ⟨s', hs, hhead'⟩ := hhead.fork_late ht
    exact ⟨y, s', hs.goesOn, PassEnds.block hhead' hb' hlimit hacc⟩
  | close hs _ ih =>
    obtain ⟨y, t', ht, hacc⟩ := ih hcause
    obtain ⟨w, rfl, hw, hhead⟩ := hs
    exact ⟨y, w ++ '}' :: t', (ht.forks.late w rfl).goesOn,
      PassEnds.close ⟨w, rfl, hw, by simpa using hhead⟩ hacc⟩
  | ended hhead hends _ ih =>
    -- what ends the statement is in front of the fork, or it is the completion itself
    obtain ⟨y, t', ⟨ht, hends'⟩, hacc⟩ := ih hcause
    obtain ⟨hends', hstops⟩ := hends' hends
    obtain ⟨s', hs, hhead'⟩ := hhead.fork_ended ht hends.ne_nil hends' hstops
    exact ⟨y, s', hs.goesOn, PassEnds.ended hhead' hends' hacc⟩
  | @runOn n s t u r cause name origin hhead hrun h ih =>
    obtain ⟨y, u', hu, hacc⟩ := ih hcause
    rcases hrun with ⟨o, ho, hs⟩ | ⟨hs, hno⟩
    · obtain ⟨t', ht, ht'⟩ := hs.fork hu.forks
      obtain ⟨s', hs, hhead'⟩ := hhead.fork_late ht
      exact ⟨y, s', hs.goesOn, PassEnds.runOn hhead' (.inl ⟨o, ho, ht'⟩) hacc⟩
    · rcases eq_or_ne u [] with rfl | hne
      · -- the next statement would start at the end of the text, so the one before it ends there
        obtain rfl := List.suffix_nil.1 h.suffix
        exact hhead.completes hs
      · obtain ⟨s', t', hs, hhead', hrun'⟩ := hhead.fork_runsOn hs hno hne hu
        exact ⟨y, s', hs.goesOn, PassEnds.runOn hhead' hrun' hacc⟩

end Grammar

/-! ### Errors -/

open Grammar

/-- **Viable prefix.** What stands before the place of an error can be completed to a field mapping,
unless a block lies too deep. So can the whole text, if its end is the place. -/
theorem exists_completion_of_parse {source : String} {limit : Nat} {e : SyntaxError}
    (h : parse source limit = .error e) (hcause : ∀ n, e.cause ≠ .tooDeep n) :
    (∃ before after, source.toList = before ++ after ∧ e.offset = byteSize before ∧
      ∃ v ts, parse (String.ofList before ++ v) limit = .ok ts) ∧
    (e.offset = source.utf8ByteSize → ∃ v ts, parse (source ++ v) limit = .ok ts) := by
  obtain ⟨before, after, hsource, hoffset, hbroken, -⟩ := broken_of_parse h
  obtain ⟨y, s', hs, hacc⟩ := hbroken.completes hcause
  -- the common beginning of the two texts is what stands before the place
  obtain ⟨p, hp, rfl⟩ := hs.forks
  obtain rfl : before = p := List.append_cancel_right (hsource.symm.trans hp)
  have hcomplete : ∃ v ts, parse (String.ofList before ++ v) limit = .ok ts := by
    obtain ⟨ts, hts⟩ := hacc {} rfl rfl
    exact ⟨String.ofList y, ts, (parse_eq_ok_iff_run _).2 (by simpa using hts)⟩
  refine ⟨⟨before, after, hsource, hoffset, hcomplete⟩, fun hend => ?_⟩
  -- at the end of the text, all of it stands before the place
  obtain rfl := (byteSize_eq_iff hsource).1 (hoffset.symm.trans hend)
  have hbefore : String.ofList before = source := by
    rw [← List.append_nil before, ← hsource, String.ofList_toList]
  rwa [hbefore] at hcomplete

/-- A text that ends within an index, within parameters and within a block can be completed. -/
theorem exists_completion_of_open_index : ∃ e, parse "o\x7b a: T(k: b[i" 1 = .error e ∧
    (∀ n, e.cause ≠ .tooDeep n) ∧ e.offset = "o\x7b a: T(k: b[i".utf8ByteSize ∧
    ∃ v ts, parse ("o\x7b a: T(k: b[i" ++ v) 1 = .ok ts := by
  have h : parse "o\x7b a: T(k: b[i" 1 =
      .error (.ofOffset (.unexpected "end of input") "o\x7b a: T(k: b[i".toList 14) := by
    decide +kernel
  have hend : (SyntaxError.ofOffset (.unexpected "end of input")
      "o\x7b a: T(k: b[i".toList 14).offset = "o\x7b a: T(k: b[i".utf8ByteSize := by
    decide +kernel
  obtain ⟨-, hcomplete⟩ := exists_completion_of_parse h nofun
  exact ⟨_, h, nofun, hend, hcomplete hend⟩

end FieldMapping
