import FieldMapping.Proofs.Grammar.Parsing
import FieldMapping.Proofs.Statement.Shape

/-!
# What the grammar derives is well-formed

Every derivation yields a well-formed list of statements (`Statements.wellFormed`). The shape of
names, keys and values is that of atoms and literals; two restrictions depend on where something
stands in the text:

* behind a comma no white space is left, so a quote that comes next is the start of a literal
  (`Args.wellFormed_tail`);
* a processor without a name uses up the text. Behind it there is neither another processor, nor a
  block, nor a statement (`Stage.wellFormed`, `Statements.of_nil`).
-/

namespace FieldMapping.Grammar

open Text Scan

variable {s t r : List Char} {a : String} {l : Level} {e : Bool}

/-! ### Atoms and values -/

/-- What an atom reads can stand for itself: it has no operator in it and no white space around
it. -/
theorem Atom.isAtom (h : Atom s a r) : IsAtom a := by
  have hne := h.ne_empty
  obtain ⟨run, -, -, hrun, -, rfl⟩ := h
  refine ⟨hne, fun c hc => ?_, by simp⟩
  -- trimming the run takes characters away and brings none in
  rw [String.toList_ofList] at hc
  exact hrun c (mem_of_mem_trim hc)

/-- A text that can stand for itself is an atom up to an operator or the end of the text. -/
theorem atom_append (h : IsAtom a) (hr : ∀ c ∈ r.head?, isOperator c = true) :
    Atom (a.toList ++ r) a r := by
  obtain ⟨c, v, ha, hc, -⟩ := h.exists_cons
  refine ⟨a.toList, ⟨[], rfl, by simp, by simp [ha, hc]⟩, by simp [ha], h.isOperator_eq_false,
    hr, ?_⟩
  rw [h.trim_eq, String.ofList_toList]

/-- What a literal reads is a text in quotes. -/
theorem Literal.isLiteral (h : Literal s a r) : IsLiteral a := by
  obtain ⟨q, body, hq, hbody, -, rfl⟩ := h
  exact ⟨q, body, hq, hbody, by simp⟩

/-- A plain value that starts with a quote stands behind white space. -/
theorem Atom.not_startsWithQuote (h : Atom s a r) (hq : ¬ QuoteNext s)
    (hs : ∀ c ∈ s.head?, isSpace c = false) : ¬ StartsWithQuote a := by
  obtain ⟨c, hc, hc'⟩ := h.head?_eq
  rw [trimStart_eq_self hs] at hc'
  obtain ⟨u, rfl⟩ := List.head?_eq_some_iff.1 hc'
  intro ha
  have hquote : isQuote c = true := by simpa [StartsWithQuote, hc] using ha
  -- with no white space in front of it, the quote is what comes next
  refine hq ⟨c, u, hquote, skips_iff.2 (dropWhile_eq_self fun d hd => ?_)⟩
  simp [isBlank, hs d hd]

/-- A value that is read is well-formed; it may start with a quote, behind white space that hides
it. -/
theorem Val.wellFormed {v : Value} (h : Val s v r) : v.WellFormed false := by
  cases h with
  | literal ht ha => exact .inl ha.isLiteral
  | plain hq ha hr => exact .inr ⟨ha.isAtom, nofun⟩
  | indexed hq hbase ho hindex hc => exact ⟨hbase.isAtom, hindex.isAtom, nofun⟩

/-- Where no white space is in front of a value, it starts with a quote only if it is a literal. -/
theorem Val.wellFormed_strict {v : Value} (h : Val s v r)
    (hs : ∀ c ∈ s.head?, isSpace c = false) : v.WellFormed true := by
  cases h with
  | literal ht ha => exact .inl ha.isLiteral
  | plain hq ha hr => exact .inr ⟨ha.isAtom, fun _ => ha.not_startsWithQuote hq hs⟩
  | indexed hq hbase ho hindex hc =>
    exact ⟨hbase.isAtom, hindex.isAtom, fun _ => hbase.not_startsWithQuote hq hs⟩

theorem isSpace_of_skips (h : Skips isSpace s r) : ∀ c ∈ r.head?, isSpace c = false := by
  obtain ⟨u, -, -, hr⟩ := h
  exact hr

/-! ### Lists -/

/-- Parameters that are read are well-formed, and only the last of them can be without a value. -/
theorem Params.wellFormed {ps : List Param} (h : Params s ps r) : Param.WellFormed false ps := by
  induction h with
  | key hk hr => exact ⟨by simp, by simpa using hk.isAtom, by simp, by simp⟩
  | last hk hc hv hr =>
    exact ⟨by simp, by simpa using hk.isAtom, by simpa using hv.wellFormed, by simp⟩
  | more hk hc hv hy hz _ ih =>
    refine ⟨by simp, ?_, ?_, ?_⟩
    · simpa using ⟨hk.isAtom, ih.isAtom_key⟩
    · simpa using ⟨hv.wellFormed, ih.value⟩
    · -- this parameter has a value, and it is in front of another one
      rw [List.dropLast_cons_of_ne_nil ih.ne_nil]
      simpa using ih.isSome_value

/-- Arguments that are read are well-formed, if a value may start with a quote. -/
theorem Args.wellFormed {vs : List Value} (h : Args s vs r) : ∀ v ∈ vs, v.WellFormed false := by
  induction h with
  | last hv hr => simpa using hv.wellFormed
  | more hv hu hx _ ih => simpa using ⟨hv.wellFormed, ih⟩

/-- Where no white space is in front of the first argument, none of them starts with a quote unless
it is a literal. -/
theorem Args.wellFormed_strict {vs : List Value} (h : Args s vs r)
    (hs : ∀ c ∈ s.head?, isSpace c = false) : ∀ v ∈ vs, v.WellFormed true := by
  -- on the arguments: behind a comma, white space is skipped, so the condition holds again
  induction h with
  | last hv hr => simpa using hv.wellFormed_strict hs
  | more hv hu hx _ ih => simpa using ⟨hv.wellFormed_strict hs, ih (isSpace_of_skips hx)⟩

/-- Behind a comma, which takes all white space along, a quote always opens a literal. -/
theorem Args.wellFormed_tail {vs : List Value} (h : Args s vs r) :
    ∀ v ∈ vs.tail, v.WellFormed true := by
  cases h with
  | last hv hr => simp
  | more hv hu hx hvs => exact hvs.wellFormed_strict (isSpace_of_skips hx)

/-- A processor is well-formed, or it has no name and is the end of the text. -/
theorem Stage.wellFormed {p : Processor} (h : Stage s p r) :
    p.WellFormed false ∨ p = ⟨"", []⟩ ∧ r = [] := by
  cases h with
  | named ha hargs =>
    cases hargs with
    | present ho hargs => exact .inl ⟨ha.isAtom, hargs.wellFormed, hargs.wellFormed_tail⟩
    | absent hno => exact .inl ⟨ha.isAtom, by simp, by simp⟩
  | nameless hs => exact .inr ⟨rfl, rfl⟩

/-- A pipeline is well-formed, with a nameless processor at its end only if it is the end of the
text. -/
theorem Stages.wellFormed {ps : List Processor} (h : Stages s ps r) :
    Processor.PipelineWellFormed false (decide (r = [])) ps := by
  induction h with
  | last hp hno =>
    refine ⟨by simp, by simp, ?_⟩
    simpa [and_comm] using hp.wellFormed
  | more hp hbar _ ih =>
    refine ⟨by simp, ?_, ?_⟩
    · rw [List.dropLast_cons_of_ne_nil ih.ne_nil]
      -- no bar follows a processor without a name
      rcases hp.wellFormed with hp | ⟨-, rfl⟩
      · simpa using ⟨hp, ih.dropLast⟩
      · exact absurd hbar not_sign_nil
    · rw [List.getLast?_cons_of_ne_nil ih.ne_nil]
      exact ih.getLast

/-- An origin is well-formed, with the same exception at the end of the text. -/
theorem Source.wellFormed {origin : Origin} (h : Source s origin r) :
    origin.WellFormed false (decide (r = [])) := by
  cases h with
  | field ha hc => exact ⟨ha.isAtom, hc⟩
  | type ha hc hps hpipe hends =>
    refine ⟨ha.isAtom, hc, ?_, ?_⟩
    · cases hps with
      | present ho hps => simpa using hps.wellFormed
      | absent hno => simp
    · cases hpipe with
      | present ho hpipe => simpa using hpipe.wellFormed
      | absent hno => simp

/-- The start of a statement has an atom for its name, and a well-formed origin if it has one. -/
theorem Head.wellFormed {name : String} {origin : Option Origin} (h : Head s name origin r) :
    IsAtom name ∧ ∀ o ∈ origin, o.WellFormed false (decide (r = [])) := by
  obtain ⟨t, ha, ho⟩ := h
  refine ⟨ha.isAtom, ?_⟩
  cases ho with
  | present hc ho => simpa using ho.wellFormed
  | absent hno => simp

/-! ### Statements -/

theorem not_head_nil {name : String} {origin : Option Origin} : ¬ Head [] name origin r := by
  rintro ⟨t, ⟨run, ⟨u, hs, -, -⟩, hne, -⟩, -⟩
  simp_all

/-- Nothing is left to read of an empty text, and no block can end in it. -/
theorem Statements.of_nil {ts : List Statement} (h : Statements l false [] ts r) :
    l = .root ∧ ts = [] := by
  cases h with
  | finish h => exact ⟨rfl, rfl⟩
  | block hhead => exact absurd hhead not_head_nil
  | ended hhead => exact absurd hhead not_head_nil
  | runOn hhead => exact absurd hhead not_head_nil

/-- A block is not empty. -/
theorem Statements.ne_nil {ts : List Statement} (h : Statements .block false s ts r) : ts ≠ [] := by
  cases h <;> simp

/-- **What is derived is well-formed.** At the root, the last statement may end in a nameless
processor; in a block it may not, since the brace that closes the block is still to come. -/
theorem Statements.wellFormed {ts : List Statement} (h : Statements l e s ts r) :
    Statement.WellFormed false (decide (l = .root)) ts := by
  -- on the derivation; what is left to show is where a nameless processor can stand
  induction h with
  | finish h => exact .nil
  | close h => exact .nil
  | separate h hne hts ih => exact ih
  | block hhead hb hinner hts ih₁ ih₂ =>
    obtain ⟨ha, ho⟩ := hhead.wellFormed
    refine .block ha (fun o h => (ho o h).mono id ?_) hinner.ne_nil ih₁ ih₂
    -- the text is not used up where a block opens
    rintro ht
    obtain rfl := of_decide_eq_true ht
    exact absurd hb not_sign_nil
  | ended hhead he hts ih =>
    obtain ⟨ha, ho⟩ := hhead.wellFormed
    refine .cons ha (fun o h => (ho o h).mono id ?_) ih
    -- nor is it where a separator comes next
    rintro ht
    obtain rfl := of_decide_eq_true ht
    obtain ⟨o, u, -, hsign⟩ := he
    exact absurd hsign not_sign_nil
  | runOn hhead hr hts ih =>
    obtain ⟨ha, ho⟩ := hhead.wellFormed
    refine .cons ha (fun o h => (ho o h).mono id ?_) ih
    -- an origin that may end in a nameless processor uses up the text
    rintro ht
    obtain rfl := of_decide_eq_true ht
    rcases hr with ⟨o, -, hsign⟩ | ⟨hskip, -⟩
    · exact absurd hsign not_sign_nil
    · obtain rfl := skips_iff.1 hskip
      obtain ⟨rfl, rfl⟩ := hts.of_nil
      rfl

end FieldMapping.Grammar
