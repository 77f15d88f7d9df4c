import FieldMapping.Proofs.Grammar.Image
import FieldMapping.Proofs.Layout.Lookahead

/-!
# Layouts are derived by the grammar

Every layout of a well-formed list of statements is a text that the grammar derives as that list
(`statements_of_layout`), by one lemma for each rule. The lemma takes a layout of what the rule
derives, with further lexemes `L` behind it, and returns the rest of the text, which is a layout of
`L`. What has to be known of `L` is what comes next in its layouts: an atom must end in front of it,
and no optional part may seem to start there.
-/

namespace FieldMapping

open Text Scan Grammar

variable {x : Lexeme} {L M : List Lexeme} {s t r u w : List Char} {a : String} {o : Operator}
  {c : Bool}

/-! ### Atoms and values -/

/-- An atom behind white space, whose end what follows marks, is read up to there. -/
theorem atom_of_gap (ha : IsAtom a) (hw : Spaces w) (h : Layout L t) (hL : Delimits L) :
    ∃ r, Atom (w ++ a.toList ++ t) a r ∧ Layout L r := by
  obtain ⟨b, ht, hb, -⟩ := dropWhile_eq_iff.1 (rfl : t.dropWhile isBlank = _)
  obtain ⟨c, v, hv, hspace, -⟩ := ha.exists_cons
  -- the run of the atom takes the blanks behind it along
  refine ⟨Scan.significant t, ⟨a.toList ++ b, ⟨w, ?_, hw, ?_⟩, ?_, ?_, ?_, ?_⟩, h.significant⟩
  · rw [Scan.significant, List.append_assoc, List.append_assoc, ← ht]
  · simp [hv, hspace]
  · simp [hv]
  · intro d hd
    rcases List.mem_append.1 hd with hd | hd
    · exact ha.isOperator_eq_false d hd
    · exact isOperator_of_isBlank (hb d hd)
  · exact h.isOperator_significant hL
  · have htrim := trim_append_append (w := []) (a := a.toList) (by simp) (Blanks.spaces hb)
    rw [List.nil_append, ha.trim_eq] at htrim
    rw [htrim, String.ofList_toList]

/-- A word in a layout is read as the atom it writes. -/
theorem layout_word (h : Layout (.word a :: L) s) (hL : Delimits L) :
    ∃ r, Atom s a r ∧ Layout L r := by
  obtain ⟨_, t, ⟨ha, w, hw, rfl⟩, ht, rfl⟩ := layout_cons_iff.1 h
  exact atom_of_gap ha hw ht hL

/-- A plain value that starts with a quote stands behind a line feed. -/
theorem layout_ofPlain (h : Layout (.ofPlain a :: L) s) : ∃ w t, IsAtom a ∧ Spaces w ∧
    (StartsWithQuote a → '\n' ∈ w) ∧ Layout L t ∧ s = w ++ a.toList ++ t := by
  obtain ⟨_, t, hx, ht, rfl⟩ := layout_cons_iff.1 h
  unfold Lexeme.ofPlain at hx
  split at hx <;> rename_i hq
  · obtain ⟨ha, w, hw, hline, rfl⟩ := hx
    exact ⟨w, t, ha, hw, fun _ => hline, ht, rfl⟩
  · obtain ⟨ha, w, hw, rfl⟩ := hx
    exact ⟨w, t, ha, hw, fun h => absurd h hq, ht, rfl⟩

/-- No literal starts in front of an atom that is written as a plain value: if the atom starts with
a quote, the line feed comes in front of it. -/
theorem not_quoteNext_of_gap (ha : IsAtom a) (hw : Spaces w) (hq : StartsWithQuote a → '\n' ∈ w) :
    ¬ QuoteNext (w ++ a.toList ++ t) := by
  rintro ⟨q, r, hquote, hskip⟩
  obtain ⟨c, v, hv, hspace, -⟩ := ha.exists_cons
  rw [skips_iff, dropWhile_gap (by rw [hv]; rfl) (isBlank_of_isSpace hspace)] at hskip
  -- the quote is the first character of the atom, which has a line feed in front of it, or it is in
  -- the gap
  cases hw' : w.dropWhile isBlank with
  | nil =>
    rw [hw', List.nil_append, hv] at hskip
    obtain ⟨rfl, -⟩ := List.cons.inj hskip
    have hline := mem_dropWhile (p := isBlank) (hq (by simp [StartsWithQuote, hv, hquote])) rfl
    simp [hw'] at hline
  | cons d w' =>
    rw [hw'] at hskip
    obtain ⟨rfl, -⟩ := List.cons.inj hskip
    have := hw.dropWhile (p := isBlank) d (by rw [hw']; simp)
    simp [isSpace_of_isQuote hquote] at this

/-- A plain value in a layout is read as the atom it writes. -/
theorem layout_plain (h : Layout (.ofPlain a :: L) s) (hL : Delimits L) :
    ∃ r, ¬ QuoteNext s ∧ Atom s a r ∧ Layout L r := by
  obtain ⟨w, t, ha, hw, hq, ht, rfl⟩ := layout_ofPlain h
  obtain ⟨r, hr⟩ := atom_of_gap ha hw ht hL
  exact ⟨r, not_quoteNext_of_gap ha hw hq, hr⟩

/-- A literal in a layout is read as such. Behind a comma it may stand on a new line, if the comma
has taken the white space along. -/
theorem layout_literal (h : Layout (.literal a c :: L) s)
    (hs : c = true → ∀ d ∈ s.head?, isSpace d = false) :
    ∃ t r, Skips isBlank s t ∧ Literal t a r ∧ Layout L r := by
  obtain ⟨_, t, ⟨ha, w, hw, rfl⟩, ht, rfl⟩ := layout_cons_iff.1 h
  -- behind a comma no white space is left in front of the literal
  have hblanks : Blanks w := by
    refine hw.elim id fun ⟨hc, hw⟩ d hd => ?_
    cases w with
    | nil => simp at hd
    | cons e w =>
      have he := hs hc e rfl
      simp [hw e (by simp)] at he
  obtain ⟨q, body, hq, hbody, hv⟩ := ha
  refine ⟨a.toList ++ t, t, ⟨w, by simp, hblanks, ?_⟩, ⟨q, body, hq, hbody, ?_, ?_⟩, ht⟩
  · simp [hv, isBlank_of_isSpace (isSpace_of_isQuote hq)]
  · simp [hv]
  · rw [← hv, String.ofList_toList]

/-- The layout of a value is derived as that value. Behind a comma, the white space in front of it
is taken away before. -/
theorem layout_value {v : Value} (h : Layout (v.lexemes c ++ L) s)
    (hs : c = true → ∀ d ∈ s.head?, isSpace d = false) (hL : Delimits L)
    (hno : firstSign L ≠ some .openBracket) : ∃ r, Val s v r ∧ Layout L r := by
  cases v with
  | scalar a =>
    simp only [Value.lexemes, List.singleton_append] at h
    split at h
    · obtain ⟨t, r, ht, ha, hr⟩ := layout_literal h hs
      exact ⟨r, .literal ht ha, hr⟩
    · obtain ⟨r, hq, ha, hr⟩ := layout_plain h hL
      exact ⟨r, .plain hq ha (not_sign_of_firstSign hr hno), hr⟩
  | indexed base index =>
    -- every part of an indexed value has an operator behind it, which ends the atom in front
    obtain ⟨t, hq, hbase, h⟩ := layout_plain (L := .sign .openBracket :: _) h trivial
    obtain ⟨u, hopen, h⟩ := layout_sign h
    obtain ⟨x, hindex, h⟩ := layout_word (L := .sign .closeBracket :: _) h trivial
    obtain ⟨r, hclose, h⟩ := layout_sign h
    exact ⟨r, .indexed hq hbase hopen hindex hclose, h⟩

/-! ### Items in parentheses -/

/-- Lexemes in front of which a comma may take all white space along. -/
def TakesSpace : Lexeme → Prop
  | .word _ | .literal _ true => True
  | _ => False

/-- Where a comma takes all white space along, the rest is a layout of the same lexemes. -/
theorem Layout.trimStart (h : Layout (x :: L) s) (hx : TakesSpace x) :
    Layout (x :: L) (trimStart s) := by
  obtain ⟨_, t, hu, ht, rfl⟩ := layout_cons_iff.1 h
  cases x with
  | word a =>
    obtain ⟨ha, w, hw, rfl⟩ := hu
    obtain ⟨c, v, hv, hspace, -⟩ := ha.exists_cons
    rw [Text.trimStart, dropWhile_gap (by rw [hv]; rfl) hspace]
    exact .cons ⟨ha, _, hw.dropWhile, rfl⟩ ht
  | literal a behindComma =>
    obtain ⟨ha, w, hw, rfl⟩ := hu
    obtain ⟨c, v, hv, hspace, -⟩ := ha.exists_cons
    rw [Text.trimStart, dropWhile_gap (by rw [hv]; rfl) hspace]
    exact .cons ⟨ha, _, hw.imp Blanks.dropWhile (And.imp id Spaces.dropWhile), rfl⟩ ht
  | onNewLine a => cases hx
  | sign o => cases hx
  | separator required => cases hx

/-- A comma in a layout takes the white space in front of the next item along. -/
theorem layout_comma (h : Layout (.sign .comma :: x :: L) s) (hx : TakesSpace x) :
    ∃ t u, Sign .comma s t ∧ Skips isSpace t u ∧ Layout (x :: L) u := by
  obtain ⟨t, ht, h⟩ := layout_sign h
  exact ⟨t, Text.trimStart t, ht, skips_iff.2 rfl, h.trimStart hx⟩

/-- The key and the value of a parameter. -/
theorem layout_keyed {k : String} {v : Value} (hL : Delimits L)
    (hno : firstSign L ≠ some .openBracket)
    (h : Layout (.word k :: .sign .colon :: (v.lexemes false ++ L)) s) :
    ∃ t u x, Atom s k t ∧ Sign .colon t u ∧ Val u v x ∧ Layout L x := by
  obtain ⟨t, hk, h⟩ := layout_word (L := .sign .colon :: _) h trivial
  obtain ⟨u, hc, h⟩ := layout_sign h
  obtain ⟨x, hv, h⟩ := layout_value h nofun hL hno
  exact ⟨t, u, x, hk, hc, hv, h⟩

/-- The layout of parameters is derived as these parameters, up to their parenthesis. -/
theorem layout_params {ps : List Param} (hps : Param.WellFormed false ps)
    (h : Layout (Lexeme.items (ps.map Param.lexemes) ++ L) s) :
    ∃ r, Params s ps r ∧ Layout L r := by
  -- on the parameters: one with a comma behind it has a value
  induction ps generalizing s with
  | nil => exact absurd rfl hps.ne_nil
  | cons p ps ih =>
    obtain ⟨k, value⟩ := p
    cases ps with
    | nil =>
      cases value with
      | none =>
        obtain ⟨t, hk, h⟩ := layout_word (L := .sign .closeParen :: _) h trivial
        obtain ⟨r, hr, h⟩ := layout_sign h
        exact ⟨r, .key hk hr, h⟩
      | some v =>
        have h : Layout (.word k :: .sign .colon ::
            (v.lexemes false ++ .sign .closeParen :: L)) s := by
          simpa [Lexeme.items, Param.lexemes] using h
        obtain ⟨t, u, x, hk, hc, hv, h⟩ :=
          layout_keyed (L := .sign .closeParen :: _) trivial nofun h
        obtain ⟨r, hr, h⟩ := layout_sign h
        exact ⟨r, .last hk hc hv hr, h⟩
    | cons p' ps =>
      cases value with
      | none =>
        -- only the last parameter may lack a value
        simpa using hps.isSome_value ⟨k, none⟩ (by simp)
      | some v =>
        -- the next parameter starts with its key
        obtain ⟨M, hM⟩ : ∃ M, Lexeme.items ((p' :: ps).map Param.lexemes) ++ L =
            .word p'.key :: M := by
          cases ps <;> exact ⟨_, rfl⟩
        have h : Layout (.word k :: .sign .colon ::
            (v.lexemes false ++ .sign .comma :: .word p'.key :: M)) s := by
          rw [← hM]
          simpa [Lexeme.items, Param.lexemes] using h
        obtain ⟨t, u, x, hk, hc, hv, h⟩ := layout_keyed (L := .sign .comma :: _) trivial nofun h
        obtain ⟨y, z, hy, hz, h⟩ := layout_comma h trivial
        obtain ⟨r, hr, h⟩ := ih hps.tail (hM ▸ h)
        exact ⟨r, .more hk hc hv hy hz hr, h⟩

/-- Behind a comma no value needs a line feed in front of it. -/
theorem Value.WellFormed.exists_lexemes {v : Value} (hv : v.WellFormed true) :
    ∃ x M, v.lexemes true = x :: M ∧ TakesSpace x := by
  cases v with
  | scalar a =>
    refine ⟨_, [], rfl, ?_⟩
    split <;> rename_i ha
    · trivial
    · rw [Lexeme.ofPlain, if_neg ((hv.resolve_left ha).2 rfl)]
      trivial
  | indexed base index =>
    refine ⟨_, _, rfl, ?_⟩
    rw [Lexeme.ofPlain, if_neg (hv.2.2 rfl)]
    trivial

/-- The layout of arguments is derived as these arguments, up to their parenthesis. -/
theorem layout_args {v : Value} {vs : List Value} (hvs : ∀ v' ∈ vs, v'.WellFormed true)
    (h : Layout (Lexeme.items (v.lexemes c :: vs.map (·.lexemes true)) ++ L) s)
    (hs : c = true → ∀ d ∈ s.head?, isSpace d = false) : ∃ r, Args s (v :: vs) r ∧ Layout L r := by
  -- the first value stands behind a parenthesis or behind a comma, each later one behind a comma
  induction vs generalizing v c s with
  | nil =>
    have h : Layout (v.lexemes c ++ .sign .closeParen :: L) s := by simpa [Lexeme.items] using h
    obtain ⟨t, hv, h⟩ := layout_value (L := .sign .closeParen :: _) h hs trivial nofun
    obtain ⟨r, hr, h⟩ := layout_sign h
    exact ⟨r, .last hv hr, h⟩
  | cons v' vs ih =>
    obtain ⟨x, M, hx, hspace⟩ := (hvs v' (by simp)).exists_lexemes
    obtain ⟨M', hM'⟩ : ∃ M', Lexeme.items (v'.lexemes true :: vs.map (·.lexemes true)) ++ L =
        x :: M' := by
      rw [hx]
      cases vs <;> exact ⟨_, rfl⟩
    have h : Layout (v.lexemes c ++ .sign .comma :: x :: M') s := by
      rw [← hM']
      simpa [Lexeme.items] using h
    obtain ⟨t, hv, h⟩ := layout_value (L := .sign .comma :: _) h hs trivial nofun
    obtain ⟨u, z, hu, hz, h⟩ := layout_comma h hspace
    obtain ⟨r, hr, h⟩ := ih (fun v hv => hvs v (List.mem_cons_of_mem v' hv)) (hM' ▸ h)
      (fun _ => isSpace_of_skips hz)
    exact ⟨r, .more hv hu hz hr, h⟩

/-! ### Pipelines and origins -/

/-- What may follow something that ends in a given way: behind an atom what marks its end, and
nothing behind a nameless processor. -/
def Ending.Fits : Ending → List Lexeme → Prop
  | .word, L => Delimits L
  | .bracket, _ => True
  | .bar, L => L = []

/-- What marks the end of an atom may follow everything but a nameless processor. -/
theorem Ending.Fits.of_delimits {e : Ending} (hL : Delimits L) (he : e ≠ .bar) : e.Fits L := by
  cases e with
  | word => exact hL
  | bracket => trivial
  | bar => exact absurd rfl he

/-- A well-formed processor has a name, so it does not end with its bar. -/
theorem Processor.WellFormed.ending_ne_bar {p : Processor} {strict : Bool}
    (hp : p.WellFormed strict) : p.ending ≠ .bar := by
  unfold Processor.ending
  rw [if_neg hp.isAtom_name.ne_empty]
  split <;> simp

/-- The layout of a processor is derived as that processor, with its name or at the end of the
text. -/
theorem layout_stage {p : Processor} (hp : p.WellFormed false ∨ p = ⟨"", []⟩)
    (h : Layout (p.lexemes ++ L) s) (hL : p.ending.Fits L)
    (hno : firstSign L ≠ some .openParen) : ∃ r, Stage s p r ∧ Layout L r := by
  rcases hp with hp | rfl
  · obtain ⟨name, args⟩ := p
    have hname : name ≠ "" := hp.isAtom_name.ne_empty
    cases args with
    | nil =>
      have h : Layout (.word name :: L) s := by simpa [Processor.lexemes, hname] using h
      have hL : Delimits L := by simpa [Processor.ending, hname, Ending.Fits] using hL
      obtain ⟨r, ha, h⟩ := layout_word h hL
      exact ⟨r, .named ha (.absent (not_sign_of_firstSign h hno)), h⟩
    | cons v vs =>
      have h : Layout (.word name :: .sign .openParen ::
          (Lexeme.items (v.lexemes false :: vs.map (·.lexemes true)) ++ L)) s := by
        simpa [Processor.lexemes, hname] using h
      obtain ⟨t, ha, h⟩ := layout_word h trivial
      obtain ⟨u, hopen, h⟩ := layout_sign h
      obtain ⟨r, hargs, h⟩ := layout_args hp.args_tail h nofun
      exact ⟨r, .named ha (.present hopen hargs), h⟩
  · -- a nameless processor has nothing but white space behind its bar
    obtain rfl : L = [] := hL
    exact ⟨[], .nameless (skips_iff.2 (List.dropWhile_eq_nil_iff.2 (layout_nil_iff.1 h))),
      .nil (by simp [Spaces])⟩

/-- The layout of a pipeline is derived as that pipeline, from its first bar on. -/
theorem layout_stages {ps : List Processor} {final : Bool}
    (hps : Processor.PipelineWellFormed false final ps)
    (h : Layout (Processor.pipelineLexemes ps ++ L) s) (hL : ∀ p ∈ ps.getLast?, p.ending.Fits L)
    (hparen : firstSign L ≠ some .openParen) (hbar : firstSign L ≠ some .bar) :
    ∃ t r, Sign .bar s t ∧ Stages t ps r ∧ Layout L r := by
  -- on the processors, each with the bar in front of it
  induction ps generalizing s with
  | nil => exact absurd rfl hps.ne_nil
  | cons p ps ih =>
    have h : Layout (.sign .bar :: (p.lexemes ++ (Processor.pipelineLexemes ps ++ L))) s := by
      simpa [Processor.pipelineLexemes] using h
    obtain ⟨t, ht, h⟩ := layout_sign h
    cases ps with
    | nil =>
      have hp := (hps.getLast p rfl).imp id And.right
      obtain ⟨r, hp, h⟩ := layout_stage (L := L) hp h (hL p rfl) hparen
      exact ⟨t, r, ht, .last hp (not_sign_of_firstSign h hbar), h⟩
    | cons p' ps =>
      -- what has a bar behind it has a name
      have hp : p.WellFormed false := hps.dropLast p (by simp)
      obtain ⟨u, hp, h⟩ := layout_stage (.inl hp) h (.of_delimits trivial hp.ending_ne_bar) nofun
      obtain ⟨x, r, hx, hps, h⟩ := ih hps.tail h (by simpa using hL)
      exact ⟨t, r, ht, .more hp hx hps, h⟩

/-- What follows a statement starts with a brace, if any operator but a separator comes first. -/
def FollowsStatement (L : List Lexeme) : Prop :=
  ∀ o, firstSign L = some o → o = .openBrace ∨ o = .closeBrace

/-- No operator that would continue a statement comes first in what follows it. -/
theorem FollowsStatement.firstSign_ne (h : FollowsStatement L)
    (ho : o ∉ [Operator.openBrace, .closeBrace] := by decide) : firstSign L ≠ some o := by
  intro hL
  rcases h o hL with rfl | rfl <;> simp at ho

/-- A bare type name ends in front of what follows a statement. -/
theorem endsType_of_layout (h : Layout L s) (hL : Delimits L) (hf : FollowsStatement L) :
    EndsType s := by
  have hop := h.isOperator_significant hL
  rcases sign_or_skips s with ⟨o, t, ho⟩ | ⟨r, hr, hno⟩
  · refine .inl ⟨o, t, ?_, ho⟩
    -- a separator, or the first operator of what follows
    rcases h.sign_cases ho with rfl | rfl | h
    · simp
    · simp
    · rcases hf o h with rfl | rfl <;> simp
  · -- no operator comes next where an atom ends: the text ends
    refine .inr ?_
    obtain rfl : Scan.significant s = r := skips_iff.1 hr
    cases hs : Scan.significant s with
    | nil => exact hs ▸ hr
    | cons c r =>
      rw [hs] at hop hno
      have := hop c rfl
      simp [hno c rfl] at this

/-- The layout of a pipeline is derived as such, and that of no pipeline as none. -/
theorem layout_processors {processors : Option (List Processor)} {final : Bool}
    (hps : ∀ ps ∈ processors, Processor.PipelineWellFormed false final ps)
    (h : Layout (processors.elim [] Processor.pipelineLexemes ++ L) s)
    (hL : ∀ ps ∈ processors, ∀ p ∈ ps.getLast?, p.ending.Fits L) (hf : FollowsStatement L) :
    ∃ r, Optional .bar Stages s processors r ∧ Layout L r := by
  have hbar : firstSign L ≠ some .bar := hf.firstSign_ne
  cases processors with
  | none => exact ⟨s, .absent (not_sign_of_firstSign h hbar), h⟩
  | some ps =>
    obtain ⟨t, r, ht, hps, h⟩ := layout_stages (hps ps rfl) h (hL ps rfl)
      hf.firstSign_ne hbar
    exact ⟨r, .present ht hps, h⟩

/-- The layout of an origin is derived as that origin. -/
theorem layout_origin {origin : Origin} {final : Bool} (ho : origin.WellFormed false final)
    (h : Layout (origin.lexemes ++ L) s) (hL : origin.ending.Fits L) (hf : FollowsStatement L) :
    ∃ r, Source s origin r ∧ Layout L r := by
  cases origin with
  | field name =>
    obtain ⟨r, ha, h⟩ := layout_word h hL
    exact ⟨r, .field ha ho.2, h⟩
  | type ref =>
    obtain ⟨name, params, processors⟩ := ref
    obtain ⟨-, hname, hps, hpipe⟩ := ho
    have hlast : ∀ ps ∈ processors, ∀ p ∈ ps.getLast?, p.ending.Fits L := by
      rintro ps rfl p hp
      simpa [Origin.ending, Option.mem_def.1 hp] using hL
    -- what follows the name, and what follows the parameters
    obtain ⟨P, hP⟩ : ∃ P, P = processors.elim [] Processor.pipelineLexemes ++ L := ⟨_, rfl⟩
    have hparen : firstSign P ≠ some .openParen := by
      cases processors with
      | none => exact hP ▸ hf.firstSign_ne
      | some ps =>
        obtain ⟨p, ps, rfl⟩ := List.exists_cons_of_ne_nil (hpipe ps rfl).ne_nil
        rw [hP]
        intro h
        cases h
    cases params with
    | none =>
      have h : Layout (.word name :: P) s := by simpa [Origin.lexemes, hP] using h
      have hdelim : Delimits P := by
        cases processors with
        | none => exact hP ▸ hL
        | some ps =>
          obtain ⟨p, ps, rfl⟩ := List.exists_cons_of_ne_nil (hpipe ps rfl).ne_nil
          rw [hP]
          trivial
      obtain ⟨t, ha, h⟩ := layout_word h hdelim
      have hno := not_sign_of_firstSign h hparen
      subst hP
      obtain ⟨r, hprocs, hr⟩ := layout_processors hpipe h hlast hf
      refine ⟨r, .type ha hname (.absent hno) hprocs fun _ hnone => ?_, hr⟩
      subst hnone
      exact endsType_of_layout h hdelim hf
    | some ps =>
      have h : Layout (.word name :: .sign .openParen ::
          (Lexeme.items (ps.map Param.lexemes) ++ P)) s := by simpa [Origin.lexemes, hP] using h
      obtain ⟨t, ha, h⟩ := layout_word h trivial
      obtain ⟨u, hopen, h⟩ := layout_sign h
      obtain ⟨x, hparams, h⟩ := layout_params (hps ps rfl) h
      subst hP
      obtain ⟨r, hprocs, hr⟩ := layout_processors hpipe h hlast hf
      exact ⟨r, .type ha hname (.present hopen hparams) hprocs (fun h => absurd h (by simp)), hr⟩

/-! ### Statements -/

/-- The layout of the start of a statement is derived as that start. -/
theorem layout_head {name : String} {origin : Option Origin} {final : Bool}
    (ho : ∀ o ∈ origin, o.WellFormed false final)
    (h : Layout (Statement.headLexemes name origin ++ L) s)
    (hL : (origin.elim .word Origin.ending).Fits L) (hf : FollowsStatement L) :
    ∃ r, Head s name origin r ∧ Layout L r := by
  cases origin with
  | none =>
    obtain ⟨r, ha, h⟩ := layout_word h hL
    have hcolon : firstSign L ≠ some .colon := hf.firstSign_ne
    exact ⟨r, ⟨r, ha, .absent (not_sign_of_firstSign h hcolon)⟩, h⟩
  | some o =>
    obtain ⟨t, ha, h⟩ := layout_word (L := .sign .colon :: _) h trivial
    obtain ⟨u, hcolon, h⟩ := layout_sign h
    obtain ⟨r, ho, h⟩ := layout_origin (ho o rfl) h hL hf
    exact ⟨r, ⟨t, ha, .present hcolon ho⟩, h⟩

/-- How a list of statements is closed: not at all in no block, and with a brace in a block. -/
inductive Closes : Level → List Lexeme → List Lexeme → Prop
  | root : Closes .root [] []
  | block {L : List Lexeme} : Closes .block (.sign .closeBrace :: L) L

/-- The lexemes of statements start with the name of the first one. -/
theorem exists_lexemes_cons (st : Statement) (ts : List Statement) :
    ∃ Y, Statement.lexemes (st :: ts) = .word st.name :: Y := by
  obtain ⟨name, origin, block⟩ := st
  rw [Statement.lexemes, Statement.fold_cons]
  exact ⟨_, rfl⟩

/-- The only operator that can come first in front of further statements is the brace that closes
their block. -/
theorem firstSign_lexemes {l : Level} {N : List Lexeme} (hM : Closes l M N) (ts : List Statement)
    (h : firstSign (Statement.lexemes ts ++ M) = some o) : o = .closeBrace := by
  cases ts with
  | nil =>
    cases hM with
    | root => cases h
    | block => exact (Option.some.inj h).symm
  | cons st ts =>
    obtain ⟨Y, hY⟩ := exists_lexemes_cons st ts
    rw [hY] at h
    cases h

/-- What is neither white space nor an operator is no separator. -/
theorem isSeparating_eq_false {d : Char} (hspace : isSpace d = false)
    (hop : isOperator d = false) : Walk.isSeparating d = false := by
  have hne : d ≠ Operator.comma.char := by
    rintro rfl
    cases hop
  simp [Walk.isSeparating, hspace, hne]

/-- Behind separators, a list of statements continues as its layout does. -/
theorem layout_behind {l : Level} {N : List Lexeme} {ts : List Statement} {b : Bool}
    (hM : Closes l M N)
    (hts : ∀ {s}, Layout (Statement.lexemes ts ++ M) s → (ts = [] → l = .root) →
      ∃ r, Statements l false s ts r ∧ Layout N r)
    (h : Layout (.separator b :: (Statement.lexemes ts ++ M)) s) :
    ∃ r, Statements l true s ts r ∧ Layout N r := by
  obtain ⟨z, t, ⟨hz, -⟩, ht, rfl⟩ := layout_cons_iff.1 h
  cases ts with
  | nil =>
    cases hM with
    | root =>
      -- the separators reach up to the end of the text
      have hskip : Skips Walk.isSeparating (z ++ t) [] := by
        refine ⟨z ++ t, by simp, fun d hd => ?_, by simp⟩
        exact (List.mem_append.1 hd).elim (hz d)
          fun hd => isSeparating_of_isSpace (layout_nil_iff.1 ht d hd)
      obtain ⟨r, hr⟩ := hts (s := []) (.nil (by simp [Spaces])) (fun _ => rfl)
      exact ⟨r, .separate hskip (by simp) hr.1, hr.2⟩
    | block =>
      -- they reach up to the brace that closes the block
      obtain ⟨_, r, ⟨w, hw, rfl⟩, hr, rfl⟩ := layout_cons_iff.1 ht
      refine ⟨r, .close ⟨z ++ w, by simp [Operator.char], fun d hd => ?_, by simp; rfl⟩, hr⟩
      exact (List.mem_append.1 hd).elim (hz d) fun hd => isSeparating_of_isSpace (hw.spaces d hd)
  | cons st ts =>
    obtain ⟨Y, hY⟩ := exists_lexemes_cons st ts
    have ht' : Layout (Statement.lexemes (st :: ts) ++ M) (trimStart t) := by
      rw [hY] at ht ⊢
      exact Layout.trimStart (L := Y ++ M) ht trivial
    -- they reach up to the name of the next statement and take the white space in front of it along
    obtain ⟨w, hw, hspaces⟩ := exists_eq_append_trimStart t
    obtain ⟨d, hd, hspace, hop⟩ : ∃ d, (trimStart t).head? = some d ∧ isSpace d = false ∧
        isOperator d = false := by
      rw [hY] at ht
      obtain ⟨t', ht', -⟩ := Layout.trimStart_word (L := Y ++ M) ht
      obtain ⟨_, _, ⟨ha, -⟩, -, -⟩ := layout_cons_iff.1 ht
      obtain ⟨c, v, hv, hc⟩ := ha.exists_cons
      exact ⟨c, by rw [ht', hv]; rfl, hc⟩
    have hskip : Skips Walk.isSeparating (z ++ t) (trimStart t) := by
      refine ⟨z ++ w, by rw [List.append_assoc, ← hw], fun e he => ?_, fun e he => ?_⟩
      · exact (List.mem_append.1 he).elim (hz e) fun he => isSeparating_of_isSpace (hspaces e he)
      · obtain rfl : d = e := by simpa [hd] using he
        exact isSeparating_eq_false hspace hop
    obtain ⟨r, hr, hN⟩ := hts ht' fun h => absurd h (List.cons_ne_nil st ts)
    refine ⟨r, .separate hskip ?_ hr, hN⟩
    rintro hbrace
    obtain rfl : d = '}' := by simpa [hd] using hbrace
    cases hop

/-- Behind the start of a statement without a block stands a separator, the end of the block around
it, or the next statement. -/
theorem layout_tail {l : Level} {N : List Lexeme} {name : String} {origin : Option Origin}
    {ts : List Statement} {b : Bool} (hM : Closes l M N)
    (hts : ∀ {s}, Layout (Statement.lexemes ts ++ M) s → (ts = [] → l = .root) →
      ∃ r, Statements l false s ts r ∧ Layout N r)
    (hhead : Head s name origin t) (h : Layout (.separator b :: (Statement.lexemes ts ++ M)) t) :
    ∃ r, Statements l false s (⟨name, origin, none⟩ :: ts) r ∧ Layout N r := by
  rcases sign_or_skips t with ⟨o, u, ho⟩ | ⟨u, hu, hop⟩
  · -- the operator separates statements or closes the block
    have hends : EndsStatement t := by
      refine ⟨o, u, ?_, ho⟩
      rcases h.sign_cases ho with rfl | rfl | h
      · simp
      · simp
      · rw [firstSign_lexemes hM ts h]
        simp
    obtain ⟨r, hr, hN⟩ := layout_behind hM hts h
    exact ⟨r, .ended hhead hends hr, hN⟩
  · -- without one, the next statement follows at once
    obtain rfl : Scan.significant t = u := skips_iff.1 hu
    have hblank : ∀ d ∈ (Scan.significant t).head?, isBlank d = false := by
      obtain ⟨-, -, -, hblank⟩ := hu
      exact hblank
    obtain ⟨z, t', ⟨hz, -⟩, ht', heq⟩ := layout_cons_iff.1 h.significant
    -- no separator can stand where neither a blank nor an operator comes next
    obtain rfl : z = [] := by
      cases z with
      | nil => rfl
      | cons d z =>
        rw [heq] at hop hblank
        have hd := hz d (List.mem_cons_self ..)
        rcases separator_cases (u := [d]) (by simpa using hd) with hd | ⟨o, v, -, hv⟩
        · exact absurd (hd d (by simp)) (by simp [hblank d rfl])
        · have hself : Scan.significant [d] = [d] := dropWhile_eq_self (by simpa using hblank d rfl)
          obtain ⟨rfl, -⟩ := List.cons.inj (hself.symm.trans hv)
          simpa using hop o.char rfl
    rw [List.nil_append] at heq
    obtain ⟨r, hr, hN⟩ := hts (heq ▸ ht') (fun hnil => by
      subst hnil
      cases hM with
      | root => rfl
      | block =>
        obtain ⟨x, hx, -⟩ := layout_sign (L := N) ht'
        rw [sign_iff, ← heq, Scan.significant, dropWhile_eq_self hblank] at hx
        have := hop '}' (by rw [hx]; rfl)
        cases this)
    exact ⟨r, .runOn hhead (.inr ⟨hu, hop⟩) hr, hN⟩

/-- A well-formed origin that is not the end of the text does not end with a bar. -/
theorem Origin.WellFormed.ending_ne_bar {origin : Origin} {strict : Bool}
    (h : origin.WellFormed strict false) : origin.ending ≠ .bar := by
  cases origin with
  | field name => simp [Origin.ending]
  | type ref =>
    obtain ⟨name, params, processors⟩ := ref
    cases processors with
    | none => simp only [Origin.ending]; split <;> simp
    | some ps =>
      have hps := h.2.2.2 ps rfl
      obtain ⟨p, hp⟩ := List.getLast?_isSome.2 hps.ne_nil |> Option.isSome_iff_exists.1
      have hp' := (hps.getLast p hp).resolve_right fun h => Bool.false_ne_true h.1
      simpa [Origin.ending, hp] using hp'.ending_ne_bar

/-- A list of statements that is well-formed is derived from each of its layouts. -/
theorem statements_of_layout {ts : List Statement} {final : Bool}
    (hts : Statement.WellFormed false final ts) {l : Level} {N : List Lexeme} (hM : Closes l M N)
    (hfinal : final = true → l = .root) (h : Layout (Statement.lexemes ts ++ M) s)
    (hroot : ts = [] → l = .root) : ∃ r, Statements l false s ts r ∧ Layout N r := by
  -- on the shape of the list, for everything that may close it
  induction hts generalizing l M N s with
  | nil =>
    obtain rfl := hroot rfl
    cases hM
    exact ⟨[], .finish (skips_iff.2 (List.dropWhile_eq_nil_iff.2 (layout_nil_iff.1 h))),
      .nil (by simp [Spaces])⟩
  | @cons final name origin ts ha ho hts ih =>
    obtain ⟨e, he⟩ : ∃ e, origin.elim .word Origin.ending = e := ⟨_, rfl⟩
    have h : Layout (Statement.headLexemes name origin ++
        (e.separator (Statement.lexemes ts).isEmpty ++ (Statement.lexemes ts ++ M))) s := by
      rw [Statement.lexemes_cons_none, he] at h
      simpa using h
    have hsep : ∀ b, FollowsStatement (.separator b :: (Statement.lexemes ts ++ M)) :=
      fun b o h => .inr (firstSign_lexemes hM ts h)
    cases e with
    | word =>
      have hdelim : Delimits (.separator (!(Statement.lexemes ts).isEmpty) ::
          (Statement.lexemes ts ++ M)) := by
        cases ts with
        | nil => cases hM <;> trivial
        | cons st ts =>
          obtain ⟨Y, hY⟩ := exists_lexemes_cons st ts
          rw [hY]
          trivial
      obtain ⟨t, hhead, h⟩ := layout_head ho h (by rw [he]; exact hdelim) (hsep _)
      exact layout_tail hM (ih hM hfinal) hhead h
    | bracket =>
      obtain ⟨t, hhead, h⟩ := layout_head ho h (by rw [he]; trivial) (hsep _)
      exact layout_tail hM (ih hM hfinal) hhead h
    | bar =>
      -- the nameless processor is the last of the text
      have hlast : final = true ∧ ts = [] := by
        cases origin with
        | none => cases he
        | some o =>
          have ho := ho o rfl
          cases hf : final && ts.isEmpty with
          | false => exact absurd he (hf ▸ ho).ending_ne_bar
          | true => simpa using hf
      obtain ⟨rfl, rfl⟩ := hlast
      obtain rfl := hfinal rfl
      cases hM
      have hnone : FollowsStatement [] := fun o h => by cases h
      obtain ⟨t, hhead, h⟩ := layout_head (L := []) ho h (by rw [he]; rfl) hnone
      have h : Layout [.separator false] t := .cons (u := []) ⟨by simp, by simp⟩ h
      exact layout_tail .root (ih .root hfinal) hhead h
  | @block final name origin inner ts ha ho hne hinner hts ih₁ ih₂ =>
    have h : Layout (Statement.headLexemes name origin ++ .sign .openBrace ::
        (Statement.lexemes inner ++ .sign .closeBrace :: .separator false ::
          (Statement.lexemes ts ++ M))) s := by
      rw [Statement.lexemes_cons_some] at h
      simpa using h
    have hending : origin.elim .word Origin.ending ≠ .bar := by
      cases origin with
      | none => simp
      | some o => exact (ho o rfl).ending_ne_bar
    obtain ⟨t, hhead, h⟩ := layout_head ho h (.of_delimits trivial hending)
      (by rintro o ⟨⟩; exact .inl rfl)
    obtain ⟨u, hopen, h⟩ := layout_sign h
    -- the block is closed by its brace, and what follows it by what closes the list
    obtain ⟨x, hblock, h⟩ := ih₁ .block (by simp) h (fun h => absurd h hne)
    obtain ⟨r, hr, hN⟩ := layout_behind hM (ih₂ hM hfinal) h
    exact ⟨r, .block hhead hopen hblock hr, hN⟩

end FieldMapping
