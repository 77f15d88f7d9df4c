import FieldMapping.Proofs.Grammar.Image
import FieldMapping.Proofs.Statement.Atoms
import FieldMapping.Proofs.Text.Pieces

/-!
# Nothing is lost

A text that is parsed is laced with the atoms of the statements that it is parsed as: they stand in
it one behind the other, and between them stand gaps, in which there is nothing but white space and
operators. So no part of a text is dropped but operators, and no part is read twice.

Each rule of the grammar laces what it derives in front of a rest that is laced already. Between two
atoms an operator is needed (`Laced`), and the rules provide it in two ways: by an operator that
they ask for, or because an atom always ends in front of one (`Laced.of_head`). The braces of the
operators are the braces of the statements, which makes them balanced.
-/

namespace FieldMapping

open Text Grammar Statement

/-! ### Lacings -/

/-- Whether a character opens or closes a block. -/
def isBrace (c : Char) : Bool :=
  c == '{' || c == '}'

/-- White space is no brace. -/
theorem isBrace_eq_false_of_isSpace {c : Char} (h : isSpace c = true) : isBrace c = false := by
  by_contra hc
  simp only [isBrace, Bool.not_eq_false, Bool.or_eq_true, beq_iff_eq] at hc
  rcases hc with rfl | rfl <;> cases h

/-- The text of an operator that is a brace. -/
def Operator.brace : Operator → List Char
  | openBrace => ['{']
  | closeBrace => ['}']
  | _ => []

/-- A text that consists of the given atoms, in their order, and of white space and operators around
them. The flag states that an operator stands in front of the first atom, if there is one, and the
second list has the braces among the operators. -/
inductive Laced : Bool → List String → List Char → List Char → Prop
  | nil : Laced true [] [] []
  | space {b : Bool} {as : List String} {B s : List Char} {c : Char} : isSpace c = true →
      Laced b as B s → Laced b as B (c :: s)
  | operator {b : Bool} {as : List String} {B s : List Char} (o : Operator) :
      Laced b as B s → Laced true as (o.brace ++ B) (o.char :: s)
  | atom {a : String} {as : List String} {B s : List Char} : IsAtom a ∨ IsLiteral a →
      Laced true as B s → Laced false (a :: as) B (a.toList ++ s)

variable {b : Bool} {as : List String} {B s t r w : List Char} {a : String} {o : Operator}

/-- White space in front of a laced text belongs to its first gap. -/
theorem Laced.spaces (hw : ∀ c ∈ w, isSpace c = true) (h : Laced b as B s) :
    Laced b as B (w ++ s) := by
  induction w with
  | nil => exact h
  | cons c w ih =>
    exact .space (hw c (List.mem_cons_self ..)) (ih fun d hd => hw d (List.mem_cons_of_mem c hd))

/-- Where a text starts with an operator or is empty, an operator stands in front of its atoms. -/
theorem Laced.of_head (hs : ∀ c ∈ s.head?, isOperator c = true) (h : Laced b as B s) :
    Laced true as B s := by
  cases h with
  | nil => exact .nil
  | @space _ _ _ s c hc h =>
    -- white space that is an operator is a line feed, which counts as an operator here
    obtain ⟨o, rfl⟩ := isOperator_eq_true_iff.1 (hs c rfl)
    have ho : o.brace = [] := by
      cases o with
      | openBrace | closeBrace => cases hc
      | _ => rfl
    have hop := Laced.operator o h
    rwa [ho] at hop
  | operator o h => exact .operator o h
  | atom ha h =>
    -- no atom starts with an operator
    obtain ⟨c, v, hv, -, hc⟩ := ha.elim IsAtom.exists_cons IsLiteral.exists_cons
    have := hs c (by simp [hv])
    simp [hc] at this

/-- What stands between separators and atoms are no braces. -/
theorem Laced.separators (hw : ∀ c ∈ w, Walk.isSeparating c = true) (h : Laced b as B s) :
    ∃ b', Laced b' as B (w ++ s) := by
  induction w with
  | nil => exact ⟨b, h⟩
  | cons c w ih =>
    obtain ⟨b', h⟩ := ih fun d hd => hw d (List.mem_cons_of_mem c hd)
    have hc := hw c (List.mem_cons_self ..)
    simp only [Walk.isSeparating, Bool.or_eq_true, beq_iff_eq] at hc
    -- a separator is white space or a comma
    rcases hc with hc | rfl
    · exact ⟨b', .space hc h⟩
    · exact ⟨true, .operator .comma h⟩

/-! ### Derivations lace texts -/

namespace Grammar

/-- White space that is skipped belongs to the gap in front of what follows. -/
theorem Skips.laced (hs : Skips isSpace s r) (h : Laced b as B r) : Laced b as B s := by
  obtain ⟨u, rfl, hu, -⟩ := hs
  exact h.spaces hu

/-- An operator belongs, with the blanks in front of it, to the gap in front of what follows. -/
theorem Sign.laced (hs : Sign o s r) (h : Laced b as B r) :
    Laced true as (o.brace ++ B) s := by
  obtain ⟨u, rfl, hu, -⟩ := hs
  exact .spaces (fun c hc => isSpace_of_isBlank (hu c hc)) (.operator o h)

/-- An atom stands in front of a laced text, with the white space around it in the gaps on both
sides. -/
theorem Atom.laced (hs : Atom s a r) (h : Laced b as B r) : Laced false (a :: as) B s := by
  have ha := hs.isAtom
  obtain ⟨run, ⟨u, rfl, hu, -⟩, -, -, hr, rfl⟩ := hs
  obtain ⟨v, w, hrun, hv, hw⟩ := exists_eq_append_trim run
  -- the white space behind the atom belongs to the gap that the operator behind it is in
  have hatom := Laced.atom (.inl ha) ((h.of_head hr).spaces hw)
  -- the run with its white space on both sides is `v`, the atom itself, and `w`
  have hs : run ++ r = v ++ (trim run ++ (w ++ r)) := by simpa using congrArg (· ++ r) hrun
  rw [String.toList_ofList] at hatom
  rw [hs]
  exact (hatom.spaces hv).spaces hu

/-- A literal stands in front of a laced text that starts with an operator. -/
theorem Literal.laced (hs : Literal s a r) (h : Laced true as B r) : Laced false (a :: as) B s := by
  have ha := Laced.atom (.inr hs.isLiteral) h
  obtain ⟨q, body, -, -, rfl, rfl⟩ := hs
  simpa using ha

/-- A value laces its text with its one or two atoms. A literal leaves no operator behind it by
itself, so one has to come next. -/
theorem Val.laced {v : Value} (hs : Val s v r) (h : Laced true as B r) :
    Laced false (v.atoms ++ as) B s := by
  cases hs with
  | literal ht ha =>
    obtain ⟨u, rfl, hu, -⟩ := ht
    exact (ha.laced h).spaces fun c hc => isSpace_of_isBlank (hu c hc)
  | plain hq ha hr => exact ha.laced h
  | indexed hq hbase ho hindex hc => exact hbase.laced (ho.laced (hindex.laced (hc.laced h)))

/-- Parameters lace their text with their atoms, and their parenthesis is an operator in front of
what follows. -/
theorem Params.laced {ps : List Param} (hs : Params s ps r) (h : Laced b as B r) :
    Laced false (ps.flatMap Param.atoms ++ as) B s := by
  induction hs with
  | key hk hr => exact hk.laced (hr.laced h)
  | last hk hc hv hr =>
    have h := hk.laced (hc.laced (hv.laced (hr.laced h)))
    simpa [Param.atoms, Operator.brace] using h
  | more hk hc hv hy hz _ ih =>
    have h := hk.laced (hc.laced (hv.laced (hy.laced (hz.laced (ih h)))))
    simpa [Param.atoms, Operator.brace] using h

/-- Arguments lace their text with their atoms. -/
theorem Args.laced {vs : List Value} (hs : Args s vs r) (h : Laced b as B r) :
    Laced false (vs.flatMap Value.atoms ++ as) B s := by
  induction hs with
  | last hv hr => simpa [Operator.brace] using hv.laced (hr.laced h)
  | more hv hu hx _ ih => simpa [Operator.brace] using hv.laced (hu.laced (hx.laced (ih h)))

/-- A processor laces its text with its name and its arguments, or with nothing if it has no
name. -/
theorem Stage.laced {p : Processor} (hs : Stage s p r) (h : Laced b as B r) :
    ∃ b', Laced b' (p.atoms ++ as) B s := by
  cases hs with
  | named ha hargs =>
    have hne := ha.ne_empty
    cases hargs with
    | present ho hargs =>
      refine ⟨false, ?_⟩
      simpa [Processor.atoms, hne, Operator.brace] using ha.laced (ho.laced (hargs.laced h))
    | absent hno =>
      refine ⟨false, ?_⟩
      simpa [Processor.atoms, hne] using ha.laced h
  | nameless hs => exact ⟨b, hs.laced h⟩

/-- A pipeline laces its text with the atoms of its processors. -/
theorem Stages.laced {ps : List Processor} (hs : Stages s ps r) (h : Laced b as B r) :
    ∃ b', Laced b' (ps.flatMap Processor.atoms ++ as) B s := by
  induction hs with
  | last hp hno => simpa using hp.laced h
  | more hp hbar _ ih =>
    obtain ⟨b', h⟩ := ih h
    simpa [Operator.brace] using hp.laced (hbar.laced h)

/-- An origin laces its text with its name, its parameters and its processors. -/
theorem Source.laced {origin : Origin} (hs : Source s origin r) (h : Laced b as B r) :
    Laced false (origin.atoms ++ as) B s := by
  cases hs with
  | field ha hc => exact ha.laced h
  | @type t u _ name params processors ha hc hparams hprocs hends =>
    -- the pipeline laces its text, from its bar on, in front of what follows
    have hu : ∃ b', Laced b' (processors.elim [] (·.flatMap Processor.atoms) ++ as) B u := by
      cases hprocs with
      | present hbar hps =>
        obtain ⟨b', h⟩ := hps.laced h
        exact ⟨true, hbar.laced h⟩
      | absent hno => exact ⟨b, h⟩
    obtain ⟨b', hu⟩ := hu
    cases hparams with
    | present ho hps =>
      have h := ha.laced (ho.laced (hps.laced hu))
      simpa [Origin.atoms, Operator.brace] using h
    | absent hno => simpa [Origin.atoms] using ha.laced hu

/-- The start of a statement laces its text with its name and the atoms of its origin. -/
theorem Head.laced {name : String} {origin : Option Origin} (hs : Head s name origin r)
    (h : Laced b as B r) : Laced false (name :: (origin.elim [] Origin.atoms ++ as)) B s := by
  obtain ⟨t, ha, hs⟩ := hs
  cases hs with
  | present hc ho => exact ha.laced (hc.laced (ho.laced h))
  | absent hno => exact ha.laced h

/-- What stands between two statements that run on has no brace in it. -/
theorem RunsOn.laced (hs : RunsOn s r) (h : Laced b as B r) : ∃ b', Laced b' as B s := by
  rcases hs with ⟨o, ho, hs⟩ | ⟨⟨u, rfl, hu, -⟩, -⟩
  · -- the operators that are dropped are no braces
    have hbrace : o.brace = [] := by
      simp only [List.mem_cons, List.not_mem_nil, or_false] at ho
      rcases ho with rfl | rfl | rfl | rfl | rfl | rfl <;> rfl
    have h := hs.laced h
    rw [hbrace] at h
    exact ⟨true, h⟩
  · exact ⟨b, h.spaces fun c hc => isSpace_of_isBlank (hu c hc)⟩

/-- The brace that closes a list of statements, if it is a block. -/
def Level.closing : Level → List Char
  | .root => []
  | .block => ['}']

/-- What is derived as a list of statements is laced with the atoms and the braces of the list. -/
theorem Statements.laced {l : Level} {e : Bool} {ts : List Statement} (hs : Statements l e s ts r)
    (h : Laced b as B r) :
    ∃ b', Laced b' (atoms ts ++ as) (braces ts ++ (l.closing ++ B)) s := by
  -- along the derivation, from the end of the text to its start
  induction hs generalizing b as B with
  | finish hs => exact ⟨b, hs.laced h⟩
  | close hs =>
    obtain ⟨u, rfl, hu, -⟩ := hs
    exact Laced.separators hu (.operator .closeBrace h)
  | separate hs hne _ ih =>
    obtain ⟨b', h⟩ := ih h
    obtain ⟨u, rfl, hu, -⟩ := hs
    exact h.separators hu
  | block hhead hb _ _ ih₁ ih₂ =>
    obtain ⟨_, h⟩ := ih₂ h
    obtain ⟨_, h⟩ := ih₁ h
    refine ⟨false, ?_⟩
    simpa [Operator.brace, Level.closing] using hhead.laced (hb.laced h)
  | ended hhead he _ ih =>
    obtain ⟨_, h⟩ := ih h
    refine ⟨false, ?_⟩
    simpa using hhead.laced h
  | runOn hhead hr _ ih =>
    -- the dropped operator goes to the gap behind the statement
    obtain ⟨_, h⟩ := ih h
    obtain ⟨_, h⟩ := hr.laced h
    refine ⟨false, ?_⟩
    simpa using hhead.laced h

end Grammar

/-! ### Gaps -/

/-- The text `g₀ a₁ g₁ … aₙ gₙ` of gaps and the atoms between them. -/
def lace : List (List Char) → List String → List Char
  | g :: gs, a :: as => g ++ (a.toList ++ lace gs as)
  | gs, _ => gs.flatten

/-- The gaps around the atoms of a text: nothing but white space and operators stands in them, and
an operator stands in each that separates two atoms. -/
structure AreGaps (gaps : List (List Char)) (atoms : List String) (s : List Char) : Prop where
  length_eq : gaps.length = atoms.length + 1
  lace_eq : lace gaps atoms = s
  space_or_operator : ∀ g ∈ gaps, ∀ c ∈ g, isSpace c = true ∨ isOperator c = true
  exists_operator : ∀ g ∈ gaps.tail.dropLast, ∃ c ∈ g, isOperator c = true

/-- A character of a gap belongs to the first gap of what follows it. -/
theorem AreGaps.cons {g : List Char} {gs : List (List Char)} {c : Char}
    (h : AreGaps (g :: gs) as s) (hc : isSpace c = true ∨ isOperator c = true) :
    AreGaps ((c :: g) :: gs) as (c :: s) where
  length_eq := h.length_eq
  lace_eq := by
    have h := h.lace_eq
    cases as with
    | nil => simpa [lace] using h
    | cons a as => simpa [lace] using h
  space_or_operator := by
    have h := h.space_or_operator
    simp only [List.mem_cons, forall_eq_or_imp] at h ⊢
    exact ⟨⟨hc, h.1⟩, h.2⟩
  exists_operator := h.exists_operator

/-- An atom in front of gaps starts an empty gap, if an operator separates it from the next atom. -/
theorem AreGaps.atom {g : List Char} {gs : List (List Char)} (h : AreGaps (g :: gs) as s)
    (hg : as ≠ [] → ∃ c ∈ g, isOperator c = true) :
    AreGaps ([] :: g :: gs) (a :: as) (a.toList ++ s) where
  length_eq := by simpa using h.length_eq
  lace_eq := by simpa [lace] using h.lace_eq
  space_or_operator := by simpa using h.space_or_operator
  exists_operator := by
    have hlength := h.length_eq
    -- the first gap of the rest is an inner one now, unless it is the last
    cases gs with
    | nil => simp
    | cons g' gs =>
      have has : as ≠ [] := by
        rintro rfl
        simp at hlength
      have h := h.exists_operator
      simp only [List.tail_cons, List.dropLast_cons_cons, List.mem_cons, forall_eq_or_imp] at h ⊢
      exact ⟨hg has, h⟩

/-- A laced text has gaps, and its braces are those in the gaps. -/
theorem Laced.exists_gaps (h : Laced b as B s) : ∃ g gs, AreGaps (g :: gs) as s ∧
    (g :: gs).flatten.filter isBrace = B ∧ (b = true → as ≠ [] → ∃ c ∈ g, isOperator c = true) := by
  -- on the lacing, from the end of the text: each character goes to the first gap
  induction h with
  | nil => exact ⟨[], [], ⟨rfl, rfl, by simp, by simp⟩, rfl, by simp⟩
  | @space b as B s c hc h ih =>
    obtain ⟨g, gs, hgaps, hB, hop⟩ := ih
    refine ⟨c :: g, gs, hgaps.cons (.inl hc), ?_, fun hb has => ?_⟩
    · simpa [isBrace_eq_false_of_isSpace hc] using hB
    · obtain ⟨d, hd, hdop⟩ := hop hb has
      exact ⟨d, List.mem_cons_of_mem c hd, hdop⟩
  | operator o h ih =>
    obtain ⟨g, gs, hgaps, hB, hop⟩ := ih
    refine ⟨o.char :: g, gs, hgaps.cons (.inr (isOperator_char o)), ?_, fun _ _ => ?_⟩
    · rw [List.flatten_cons, List.cons_append, ← List.flatten_cons, List.filter_cons, hB]
      cases o <;> rfl
    · exact ⟨o.char, List.mem_cons_self .., isOperator_char o⟩
  | atom ha h ih =>
    -- an atom closes the gap behind it and starts an empty one
    obtain ⟨g, gs, hgaps, hB, hop⟩ := ih
    exact ⟨[], g :: gs, hgaps.atom (hop rfl), by simpa using hB, nofun⟩

/-! ### Texts without quotes -/

/-- In front of its atoms, a text has blanks and then an operator, if it has any atoms. -/
theorem Laced.exists_blanks (h : Laced b as B s) (hb : b = true) : ∃ w r, s = w ++ r ∧
    (∀ c ∈ w, isBlank c = true) ∧ ∀ c ∈ r.head?, isOperator c = true := by
  induction h with
  | nil => exact ⟨[], [], rfl, by simp, by simp⟩
  | @space b as B s c hc h ih =>
    by_cases hn : c = '\n'
    · subst hn
      exact ⟨[], '\n' :: s, rfl, by simp, by rintro _ ⟨⟩; rfl⟩
    · obtain ⟨w, r, rfl, hw, hr⟩ := ih hb
      have hblank : isBlank c = true := by simp [isBlank, hc, hn]
      exact ⟨c :: w, r, rfl, by simpa [hblank] using hw, hr⟩
  | @operator b as B s o h ih => exact ⟨[], o.char :: s, rfl, by simp, by simp⟩
  | atom ha h ih => cases hb

/-- The pieces of a laced text without quotes are its atoms. -/
theorem Laced.pieces_eq (h : Laced b as B s) (hs : ∀ c ∈ s, isQuote c = false) :
    pieces s = as := by
  induction h with
  | nil => rfl
  | space hc h ih =>
    rw [pieces_cons_space hc]
    exact ih fun d hd => hs d (List.mem_cons_of_mem _ hd)
  | operator o h ih =>
    rw [pieces_cons_operator (isOperator_char o)]
    exact ih fun d hd => hs d (List.mem_cons_of_mem _ hd)
  | @atom a as B s ha h ih =>
    -- a literal would bring its quotes into the text
    have ha : IsAtom a := by
      refine ha.resolve_right ?_
      rintro ⟨q, body, hq, -, hlit⟩
      have := hs q (by simp [hlit])
      simp [hq] at this
    -- the atom is a piece up to the operator that stands behind it and its blanks
    obtain ⟨w, r, rfl, hw, hr⟩ := h.exists_blanks rfl
    have hne : a.toList ≠ [] := fun hnil => ha.ne_empty (String.toList_eq_nil_iff.1 hnil)
    rw [pieces_append hne ha.isOperator_eq_false ha.trim_eq hw hr, String.ofList_toList,
      ih fun d hd => hs d (List.mem_append_right _ hd)]

/-! ### Parsing -/

variable {source : String} {limit : Nat} {ts : List Statement}

/-- A text that is parsed is laced with the atoms of its statements. -/
theorem laced_of_parse (h : parse source limit = .ok ts) :
    ∃ b, Laced b (atoms ts) (braces ts) source.toList := by
  obtain ⟨b, h⟩ := (document_of_parse h).1.laced .nil
  exact ⟨b, by simpa [Level.closing] using h⟩

/-- **Nothing is lost.** A text that is parsed consists of the atoms of its statements, in their
order, and of gaps around them. The braces in the gaps are balanced, with one pair for each block,
and where the text has no quotes, the atoms are its pieces between the operators. -/
theorem exists_gaps_of_parse (h : parse source limit = .ok ts) :
    (∃ gaps, AreGaps gaps (atoms ts) source.toList ∧ Balanced gaps.flatten ∧
      gaps.flatten.count '{' = blocks ts) ∧
    ((∀ c ∈ source.toList, isQuote c = false) → atoms ts = pieces source.toList) := by
  obtain ⟨b, h⟩ := laced_of_parse h
  refine ⟨?_, fun hs => (h.pieces_eq hs).symm⟩
  obtain ⟨g, gs, hgaps, hB, -⟩ := h.exists_gaps
  refine ⟨g :: gs, hgaps, ?_, ?_⟩
  · have hbalanced := balanced_braces ts
    rw [← hB] at hbalanced
    exact hbalanced.of_filter rfl rfl
  · rw [← count_braces, ← hB, List.count_filter rfl]

/-- A parenthesis and a comma that belong to nothing are parts of gaps. -/
theorem exists_gaps_of_stray :
    (∃ gaps, AreGaps gaps ["m", "a", "e", "c", "T", "k", "x", "z"]
        "m ) a: e \x7b\n c: T(k: x) , \x7d z".toList ∧
      Balanced gaps.flatten ∧ gaps.flatten.count '{' = 1) ∧
    ["m", "a", "e", "c", "T", "k", "x", "z"] =
      pieces "m ) a: e \x7b\n c: T(k: x) , \x7d z".toList := by
  have h : parse "m ) a: e \x7b\n c: T(k: x) , \x7d z" 1 = .ok
      [⟨"m", none, none⟩, ⟨"a", some (.field "e"), some
        [⟨"c", some (.type ⟨"T", some [⟨"k", some (.scalar "x")⟩], none⟩), none⟩]⟩,
        ⟨"z", none, none⟩] := by decide +kernel
  obtain ⟨hgaps, hpieces⟩ := exists_gaps_of_parse h
  refine ⟨hgaps, hpieces fun c hc => ?_⟩
  have hall : "m ) a: e \x7b\n c: T(k: x) , \x7d z".toList.all (!isQuote ·) = true := by decide
  simpa using List.all_eq_true.1 hall c hc

end FieldMapping
