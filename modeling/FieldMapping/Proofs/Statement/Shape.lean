import FieldMapping.Proofs.Statement.Tree
import FieldMapping.Proofs.Text.Trimming

/-!
# The shape of written statements

Not every tree of statements can be written down: names have to be free of operators, lists must not
be empty, and only the last parameter may lack a value. `Statement.WellFormed` collects these
conditions. Two flags tell apart what a writer may rely on from what a reader may meet:

* with `strict`, no plain value and no base of an indexed reference starts with a quote. Without
  it, the first value of a list may, since a quote behind a line feed opens no literal;
* with `final`, the list ends where the text ends, and the last processor in it may lack a name.
-/

namespace FieldMapping

open Text

/-! ### Atoms and literals -/

/-- A text that can stand for itself: it is not empty, has no operators, and no white space at
its ends. -/
structure IsAtom (a : String) : Prop where
  ne_empty : a ≠ ""
  isOperator_eq_false : ∀ c ∈ a.toList, isOperator c = false
  trim_eq : trim a.toList = a.toList

/-- A quoted literal: a quote, a body without that quote, and the quote again. -/
def IsLiteral (a : String) : Prop :=
  ∃ q body, isQuote q = true ∧ q ∉ body ∧ a.toList = q :: body ++ [q]

/-- A text whose first character is a quote. -/
def StartsWithQuote (a : String) : Prop :=
  a.toList.head?.any isQuote = true

/-- What makes an atom can be checked character by character. -/
theorem isAtom_iff {a : String} : IsAtom a ↔
    a ≠ "" ∧ a.toList.all (!isOperator ·) = true ∧ trim a.toList = a.toList := by
  simp only [List.all_eq_true, Bool.not_eq_true']
  exact ⟨fun h => ⟨h.ne_empty, h.isOperator_eq_false, h.trim_eq⟩,
    fun ⟨hne, hop, htrim⟩ => ⟨hne, hop, htrim⟩⟩

instance : DecidablePred IsAtom := fun _ => decidable_of_iff' _ isAtom_iff

instance : DecidablePred StartsWithQuote := fun a =>
  inferInstanceAs (Decidable (a.toList.head?.any isQuote = true))

/-- A literal is what starts with a quote and ends at the next one. -/
theorem isLiteral_iff {a : String} : IsLiteral a ↔
    StartsWithQuote a ∧
      a.toList.head?.all (fun q => a.toList.tail.dropWhile (· != q) = [q]) = true := by
  simp only [Option.all_eq_true, decide_eq_true_eq]
  constructor
  · rintro ⟨q, body, hq, hbody, ha⟩
    -- the body is the run up to the next quote
    have hb : ∀ c ∈ body, (c != q) = true := by
      intro c hc
      simpa using fun h : c = q => hbody (h ▸ hc)
    refine ⟨by simp [StartsWithQuote, ha, hq], fun q' hq' => ?_⟩
    obtain rfl : q = q' := by simpa [ha] using hq'
    rw [ha]
    exact dropWhile_append_eq hb (by simp)
  · rintro ⟨hquote, hrest⟩
    unfold StartsWithQuote at hquote
    cases hs : a.toList with
    | nil => simp [hs] at hquote
    | cons q t =>
      rw [hs] at hquote hrest
      obtain ⟨body, ht, hbody, -⟩ := dropWhile_eq_iff.1 (hrest q rfl)
      refine ⟨q, body, by simpa using hquote, fun hmem => ?_, by rw [hs, show t = _ from ht]; rfl⟩
      simpa using hbody q hmem

instance : DecidablePred IsLiteral := fun _ => decidable_of_iff' _ isLiteral_iff

/-- An atom starts with a character that is neither white space nor an operator. -/
theorem IsAtom.exists_cons {a : String} (h : IsAtom a) :
    ∃ c v, a.toList = c :: v ∧ isSpace c = false ∧ isOperator c = false := by
  cases hv : a.toList with
  | nil => exact absurd (String.toList_eq_nil_iff.1 hv) h.ne_empty
  | cons c v =>
    have htrim := h.trim_eq
    rw [hv] at htrim
    exact ⟨c, v, rfl, isSpace_of_mem_head?_trim (s := c :: v) (by rw [htrim]; rfl),
      h.isOperator_eq_false c (by simp [hv])⟩

/-- A literal starts with its quote, which is neither white space nor an operator. -/
theorem IsLiteral.exists_cons {a : String} (h : IsLiteral a) :
    ∃ c v, a.toList = c :: v ∧ isSpace c = false ∧ isOperator c = false := by
  obtain ⟨q, body, hq, -, ha⟩ := h
  exact ⟨q, body ++ [q], ha, isSpace_of_isQuote hq, isOperator_of_isQuote hq⟩

/-! ### Values, parameters and processors -/

/-- A scalar is a literal or an atom, and an indexed reference consists of two atoms. With `strict`,
an atom that starts with a quote is neither a scalar nor a base. -/
def Value.WellFormed (strict : Bool) : Value → Prop
  | .scalar a => IsLiteral a ∨ IsAtom a ∧ (strict = true → ¬ StartsWithQuote a)
  | .indexed base index => IsAtom base ∧ IsAtom index ∧ (strict = true → ¬ StartsWithQuote base)

/-- Parameters of a type: there is one, and only the last may lack a value. -/
structure Param.WellFormed (strict : Bool) (ps : List Param) : Prop where
  ne_nil : ps ≠ []
  isAtom_key : ∀ p ∈ ps, IsAtom p.key
  value : ∀ p ∈ ps, ∀ v ∈ p.value, v.WellFormed strict
  isSome_value : ∀ p ∈ ps.dropLast, p.value.isSome = true

/-- The parameters behind the first one are well-formed, if there are any. -/
theorem Param.WellFormed.tail {strict : Bool} {p p' : Param} {ps : List Param}
    (h : Param.WellFormed strict (p :: p' :: ps)) : Param.WellFormed strict (p' :: ps) where
  ne_nil := by simp
  isAtom_key := fun q hq => h.isAtom_key q (List.mem_cons_of_mem p hq)
  value := fun q hq => h.value q (List.mem_cons_of_mem p hq)
  isSome_value := fun q hq => h.isSome_value q (List.mem_cons_of_mem p hq)

/-- A processor: behind its first argument, nothing that starts with a quote is a plain value. -/
structure Processor.WellFormed (strict : Bool) (p : Processor) : Prop where
  isAtom_name : IsAtom p.name
  args : ∀ v ∈ p.args, v.WellFormed strict
  args_tail : ∀ v ∈ p.args.tail, v.WellFormed true

/-- A pipeline: there is a processor, and with `final` the last one may lack a name. -/
structure Processor.PipelineWellFormed (strict final : Bool) (ps : List Processor) : Prop where
  ne_nil : ps ≠ []
  dropLast : ∀ p ∈ ps.dropLast, p.WellFormed strict
  getLast : ∀ p ∈ ps.getLast?, p.WellFormed strict ∨ final = true ∧ p = ⟨"", []⟩

/-- The processors behind the first one are a well-formed pipeline, if there are any. -/
theorem Processor.PipelineWellFormed.tail {strict final : Bool} {p p' : Processor}
    {ps : List Processor} (h : PipelineWellFormed strict final (p :: p' :: ps)) :
    PipelineWellFormed strict final (p' :: ps) where
  ne_nil := by simp
  dropLast := fun q hq => h.dropLast q (List.mem_cons_of_mem p hq)
  getLast := fun q hq => h.getLast q (by simpa using hq)

/-- A field starts above `a`, and the name of a type does not. -/
def Origin.WellFormed (strict final : Bool) : Origin → Prop
  | .field name => IsAtom name ∧ ∀ c ∈ name.toList.head?, 'a' < c
  | .type ref => IsAtom ref.name ∧ (∀ c ∈ ref.name.toList.head?, ¬ 'a' < c) ∧
      (∀ ps ∈ ref.params, Param.WellFormed strict ps) ∧
      ∀ ps ∈ ref.processors, Processor.PipelineWellFormed strict final ps

/-! ### Decidability -/

instance (strict : Bool) : DecidablePred (Value.WellFormed strict)
  | .scalar a => inferInstanceAs <| Decidable <|
      IsLiteral a ∨ IsAtom a ∧ (strict = true → ¬ StartsWithQuote a)
  | .indexed base index => inferInstanceAs <| Decidable <|
      IsAtom base ∧ IsAtom index ∧ (strict = true → ¬ StartsWithQuote base)

instance (strict : Bool) : DecidablePred (Param.WellFormed strict) := fun ps =>
  decidable_of_iff (ps ≠ [] ∧ (∀ p ∈ ps, IsAtom p.key) ∧
      (∀ p ∈ ps, ∀ v ∈ p.value, v.WellFormed strict) ∧ ∀ p ∈ ps.dropLast, p.value.isSome = true)
    ⟨fun ⟨h₁, h₂, h₃, h₄⟩ => ⟨h₁, h₂, h₃, h₄⟩, fun ⟨h₁, h₂, h₃, h₄⟩ => ⟨h₁, h₂, h₃, h₄⟩⟩

instance (strict : Bool) : DecidablePred (Processor.WellFormed strict) := fun p =>
  decidable_of_iff (IsAtom p.name ∧ (∀ v ∈ p.args, v.WellFormed strict) ∧
      ∀ v ∈ p.args.tail, v.WellFormed true)
    ⟨fun ⟨h₁, h₂, h₃⟩ => ⟨h₁, h₂, h₃⟩, fun ⟨h₁, h₂, h₃⟩ => ⟨h₁, h₂, h₃⟩⟩

instance (strict final : Bool) : DecidablePred (Processor.PipelineWellFormed strict final) :=
  fun ps => decidable_of_iff (ps ≠ [] ∧ (∀ p ∈ ps.dropLast, p.WellFormed strict) ∧
      ∀ p ∈ ps.getLast?, p.WellFormed strict ∨ final = true ∧ p = ⟨"", []⟩)
    ⟨fun ⟨h₁, h₂, h₃⟩ => ⟨h₁, h₂, h₃⟩, fun ⟨h₁, h₂, h₃⟩ => ⟨h₁, h₂, h₃⟩⟩

instance (strict final : Bool) : DecidablePred (Origin.WellFormed strict final)
  | .field name => decidable_of_iff
      (IsAtom name ∧ name.toList.head?.all ('a' < ·) = true)
      (by simp [Origin.WellFormed, Option.all_eq_true])
  | .type ref => decidable_of_iff
      (IsAtom ref.name ∧ ref.name.toList.head?.all (¬ 'a' < ·) = true ∧
        (∀ ps ∈ ref.params, Param.WellFormed strict ps) ∧
          ∀ ps ∈ ref.processors, Processor.PipelineWellFormed strict final ps)
      (by simp [Origin.WellFormed, Option.all_eq_true])

/-! ### Fewer restrictions -/

section Mono

variable {strict strict' final final' : Bool}

/-- What is well-formed stays so where quotes are restricted less. -/
theorem Value.WellFormed.mono {v : Value} (h : v.WellFormed strict)
    (hs : strict' = true → strict = true) : v.WellFormed strict' := by
  cases v with
  | scalar a => exact h.imp id fun ⟨ha, hq⟩ => ⟨ha, hq ∘ hs⟩
  | indexed base index => exact ⟨h.1, h.2.1, h.2.2 ∘ hs⟩

/-- Parameters that are well-formed stay so where quotes are restricted less. -/
theorem Param.WellFormed.mono {ps : List Param} (h : Param.WellFormed strict ps)
    (hs : strict' = true → strict = true) : Param.WellFormed strict' ps :=
  { h with value := fun p hp v hv => (h.value p hp v hv).mono hs }

/-- A processor that is well-formed stays so where quotes are restricted less. -/
theorem Processor.WellFormed.mono {p : Processor} (h : p.WellFormed strict)
    (hs : strict' = true → strict = true) : p.WellFormed strict' :=
  { h with args := fun v hv => (h.args v hv).mono hs }

/-- A pipeline that is well-formed stays so where quotes are restricted less, and at the end of a
text. -/
theorem Processor.PipelineWellFormed.mono {ps : List Processor}
    (h : PipelineWellFormed strict final ps) (hs : strict' = true → strict = true)
    (hf : final = true → final' = true) : PipelineWellFormed strict' final' ps where
  ne_nil := h.ne_nil
  dropLast := fun p hp => (h.dropLast p hp).mono hs
  getLast := fun p hp => (h.getLast p hp).imp (·.mono hs) fun ⟨hl, hp⟩ => ⟨hf hl, hp⟩

/-- What is well-formed stays so where quotes are restricted less, and at the end of a text. -/
theorem Origin.WellFormed.mono {o : Origin} (h : o.WellFormed strict final)
    (hs : strict' = true → strict = true) (hf : final = true → final' = true) :
    o.WellFormed strict' final' := by
  cases o with
  | field name => exact h
  | type ref =>
    obtain ⟨ha, hc, hps, hpipe⟩ := h
    exact ⟨ha, hc, fun ps h => (hps ps h).mono hs, fun ps h => (hpipe ps h).mono hs hf⟩

end Mono

/-! ### Statements -/

/-- A list of statements whose names are atoms, whose origins are well-formed and whose blocks are
not empty. With `final`, the last statement, if it has no block, may end in a nameless processor. -/
inductive Statement.WellFormed (strict : Bool) : Bool → List Statement → Prop
  | nil {final : Bool} : WellFormed strict final []
  | cons {final : Bool} {name : String} {origin : Option Origin} {ts : List Statement} :
      IsAtom name →
      (∀ o ∈ origin, o.WellFormed strict (final && ts.isEmpty)) →
      WellFormed strict final ts → WellFormed strict final (⟨name, origin, none⟩ :: ts)
  | block {final : Bool} {name : String} {origin : Option Origin} {inner ts : List Statement} :
      IsAtom name → (∀ o ∈ origin, o.WellFormed strict false) → inner ≠ [] →
      WellFormed strict false inner → WellFormed strict final ts →
      WellFormed strict final (⟨name, origin, some inner⟩ :: ts)

/-- What is well-formed stays so where quotes are restricted less, and at the end of a text. -/
theorem Statement.WellFormed.mono {strict strict' final final' : Bool} {ts : List Statement}
    (h : WellFormed strict final ts) (hs : strict' = true → strict = true)
    (hf : final = true → final' = true) : WellFormed strict' final' ts := by
  -- on the shape of the list; inside a block, nothing is at the end of the text
  induction h generalizing final' with
  | nil => exact .nil
  | cons hname horigin hts ih =>
    refine .cons hname (fun o ho => (horigin o ho).mono hs fun h => ?_) (ih hf)
    rw [Bool.and_eq_true] at h ⊢
    exact ⟨hf h.1, h.2⟩
  | block hname horigin hne hinner hts ih₁ ih₂ =>
    exact .block hname (fun o ho => (horigin o ho).mono hs id) hne (ih₁ id) (ih₂ hf)

end FieldMapping
