import FieldMapping.Proofs.Layout.Deriving

/-!
# Parsing what is written

Layouts and parses undo each other, in both directions:

* whatever gaps and separators a layout chooses, a parse gives back the statements it lays out
  (`parse_eq_ok_of_layout`). Here no plain value may start with a quote, and no processor may lack
  its name;
* a parse gives nothing but what can be laid out (`exists_parse_eq_ok_iff`). Every well-formed list
  of statements has a layout, the one with the shortest gaps, which is a source for it.
-/

namespace FieldMapping

open Text Grammar Statement

variable {ts : List Statement} {s r : List Char} {limit : Nat} {strict final : Bool}

/-! ### Reading layouts -/

/-- In no block, statements are read up to the end of the text. -/
theorem Grammar.Statements.rest_eq_nil {l : Level} {e : Bool} (h : Statements l e s ts r)
    (hl : l = .root) : r = [] := by
  induction h with
  | finish h => rfl
  | close h => cases hl
  | separate h hne hts ih => exact ih hl
  | block hhead hb hinner hts ih₁ ih₂ => exact ih₂ hl
  | ended hhead he hts ih => exact ih hl
  | runOn hhead hr hts ih => exact ih hl

/-- Every layout of well-formed statements is a field mapping of these statements. -/
theorem document_of_layout (hts : WellFormed false true ts) (h : Layout (lexemes ts) s) :
    Document s ts := by
  obtain ⟨r, hr, -⟩ := statements_of_layout hts .root (fun _ => rfl)
    (by rwa [List.append_nil]) (fun _ => rfl)
  obtain rfl := hr.rest_eq_nil rfl
  exact hr

/-- **Round trip.** Well-formed statements, laid out in any way, are parsed as they were written. -/
theorem parse_eq_ok_of_layout {source : String} (hts : WellFormed true false ts)
    (hlimit : nesting ts ≤ limit) (h : Layout (lexemes ts) source.toList) :
    parse source limit = .ok ts :=
  parse_of_document (document_of_layout (hts.mono nofun nofun) h) hlimit

/-- Separators of several kinds, a literal with operators in it, and one on a line of its own. -/
theorem parse_user_eq_ok : parse
    "u : User(id: 'a,\x7b' , x: k[ 1 ],\n n)\x7b\n m:mail,,\n\n t: Tag|trim | pad (2,\n 'x')\n\x7dz"
    1 = .ok
    [⟨"u", some (.type ⟨"User", some [⟨"id", some (.scalar "'a,\x7b'")⟩,
        ⟨"x", some (.indexed "k" "1")⟩, ⟨"n", none⟩], none⟩), some
      [⟨"m", some (.field "mail"), none⟩,
        ⟨"t", some (.type ⟨"Tag", none, some [⟨"trim", []⟩,
          ⟨"pad", [.scalar "2", .scalar "'x'"]⟩]⟩), none⟩]⟩,
      ⟨"z", none, none⟩] := by
  -- the text cut into the written forms of its lexemes
  refine parse_eq_ok_of_layout ?_ (by decide) (layout_of_forall₂ ["u", " :", " User", "(", "id",
    ":", " 'a,\x7b'", " ,", " x", ":", " k", "[", " 1", " ]", ",", "\n n", ")", "\x7b", "\n m",
    ":", "mail", ",,", "\n\n t", ":", " Tag", "|", "trim", " |", " pad", " (", "2", ",",
    "\n 'x'", ")", "\n", "\x7d", "", "z", ""] ?_)
  · exact .block (by decide) (by decide) (by simp)
      (.cons (by decide) (by decide) (.cons (by decide) (by decide) .nil))
      (.cons (by decide) (by decide) .nil)
  · decide +kernel

/-! ### Writing well-formed statements -/

/-- Lexemes that can be written. -/
def Lexeme.Valid : Lexeme → Prop
  | .word a | .onNewLine a => IsAtom a
  | .literal a _ => IsLiteral a
  | .sign _ | .separator _ => True

/-- Every valid lexeme has a written form, with the shortest gap that it allows. -/
theorem Lexeme.Valid.exists_writes {x : Lexeme} (h : x.Valid) : ∃ u, x.Writes u := by
  cases x with
  | word a => exact ⟨_, h, [], by simp [Spaces], rfl⟩
  | literal a behindComma => exact ⟨_, h, [], .inl (by simp [Blanks]), rfl⟩
  | onNewLine a =>
    -- a quote that opens no literal needs a line feed in front of it
    exact ⟨_, h, ['\n'], by simp [Spaces], by simp, rfl⟩
  | sign o => exact ⟨_, [], by simp [Blanks], rfl⟩
  | separator required =>
    refine ⟨[','], fun c hc => ?_, fun _ => ⟨',', by simp⟩⟩
    obtain rfl := List.mem_singleton.1 hc
    rfl

/-- Valid lexemes have a layout. -/
theorem exists_layout {xs : List Lexeme} (h : ∀ x ∈ xs, x.Valid) : ∃ s, Layout xs s := by
  induction xs with
  | nil => exact ⟨[], .nil (by simp [Spaces])⟩
  | cons x xs ih =>
    obtain ⟨u, hu⟩ := (h x (List.mem_cons_self ..)).exists_writes
    obtain ⟨s, hs⟩ := ih fun x hx => h x (List.mem_cons_of_mem _ hx)
    exact ⟨u ++ s, .cons hu hs⟩

/-- The lexeme of a plain value is valid, whether it starts with a quote or not. -/
theorem valid_ofPlain {a : String} (h : IsAtom a) : (Lexeme.ofPlain a).Valid := by
  unfold Lexeme.ofPlain
  split <;> exact h

/-- A well-formed value can be written. -/
theorem Value.WellFormed.valid {v : Value} (h : v.WellFormed strict) (behindComma : Bool) :
    ∀ x ∈ v.lexemes behindComma, x.Valid := by
  cases v with
  | scalar a =>
    simp only [Value.lexemes, List.mem_singleton, forall_eq]
    split <;> rename_i ha
    · exact ha
    · exact valid_ofPlain (h.resolve_left ha).1
  | indexed base index =>
    simp only [Value.lexemes, List.mem_cons, List.not_mem_nil, or_false, forall_eq_or_imp,
      forall_eq]
    exact ⟨valid_ofPlain h.1, trivial, h.2.1, trivial⟩

/-- Items in a list can be written if each of them can be. -/
theorem valid_items {xs : List (List Lexeme)} (h : ∀ l ∈ xs, ∀ x ∈ l, x.Valid) :
    ∀ x ∈ Lexeme.items xs, x.Valid := by
  fun_induction Lexeme.items xs with
  | case1 => simp [Lexeme.Valid]
  | case2 l =>
    intro x hx
    rcases List.mem_append.1 hx with hx | hx
    · exact h l (by simp) x hx
    · obtain rfl := List.mem_singleton.1 hx
      trivial
  | case3 l l' xs ih =>
    intro x hx
    rcases List.mem_append.1 hx with hx | hx
    · exact h l (by simp) x hx
    · rcases List.mem_cons.1 hx with rfl | hx
      · trivial
      · exact ih (fun l hl => h l (List.mem_cons_of_mem _ hl)) x hx

/-- Well-formed parameters can be written. -/
theorem Param.WellFormed.valid {ps : List Param} (h : Param.WellFormed strict ps) :
    ∀ x ∈ Lexeme.items (ps.map Param.lexemes), x.Valid := by
  refine valid_items fun l hl x hx => ?_
  obtain ⟨p, hp, rfl⟩ := List.mem_map.1 hl
  rcases List.mem_cons.1 hx with rfl | hx
  · exact h.isAtom_key p hp
  · cases hv : p.value with
    | none => simp [hv] at hx
    | some v =>
      rw [hv] at hx
      rcases List.mem_cons.1 hx with rfl | hx
      · trivial
      · exact (h.value p hp v hv).valid false x hx

/-- A well-formed processor can be written. -/
theorem Processor.WellFormed.valid {p : Processor} (h : p.WellFormed strict) :
    ∀ x ∈ p.lexemes, x.Valid := by
  obtain ⟨name, args⟩ := p
  intro x hx
  simp only [Processor.lexemes, if_neg h.isAtom_name.ne_empty, List.singleton_append] at hx
  rcases List.mem_cons.1 hx with rfl | hx
  · exact h.isAtom_name
  · cases args with
    | nil => simp at hx
    | cons v vs =>
      rcases List.mem_cons.1 hx with rfl | hx
      · trivial
      · refine valid_items (fun l hl => ?_) x hx
        rcases List.mem_cons.1 hl with rfl | hl
        · exact (h.args v (by simp)).valid false
        · obtain ⟨v', hv', rfl⟩ := List.mem_map.1 hl
          exact (h.args_tail v' hv').valid true

/-- A well-formed pipeline can be written. -/
theorem Processor.PipelineWellFormed.valid {ps : List Processor}
    (h : PipelineWellFormed strict final ps) : ∀ x ∈ pipelineLexemes ps, x.Valid := by
  intro x hx
  obtain ⟨p, hp, hx⟩ := List.mem_flatMap.1 hx
  rcases List.mem_cons.1 hx with rfl | hx
  · trivial
  · -- the last processor has no lexemes where it lacks its name
    have hps := List.dropLast_concat_getLast h.ne_nil
    rw [← hps] at hp
    rcases List.mem_append.1 hp with hp | hp
    · exact (h.dropLast p hp).valid x hx
    · obtain rfl := List.mem_singleton.1 hp
      rcases h.getLast _ (List.getLast?_eq_some_getLast h.ne_nil) with hp | ⟨-, hp⟩
      · exact hp.valid x hx
      · rw [hp] at hx
        simp [Processor.lexemes] at hx

/-- A well-formed origin can be written. -/
theorem Origin.WellFormed.valid {o : Origin} (h : o.WellFormed strict final) :
    ∀ x ∈ o.lexemes, x.Valid := by
  cases o with
  | field name =>
    intro x hx
    obtain rfl := List.mem_singleton.1 hx
    exact h.1
  | type ref =>
    obtain ⟨name, params, processors⟩ := ref
    obtain ⟨ha, -, hps, hpipe⟩ := h
    intro x hx
    simp only [Origin.lexemes, List.cons_append, List.mem_cons, List.mem_append] at hx
    rcases hx with rfl | hx | hx
    · exact ha
    · cases params with
      | none => simp at hx
      | some ps =>
        rcases List.mem_cons.1 hx with rfl | hx
        · trivial
        · exact (hps ps rfl).valid x hx
    · cases processors with
      | none => simp at hx
      | some ps => exact (hpipe ps rfl).valid x hx

/-- What stands behind a statement can be written. -/
theorem Ending.valid_separator {last : Bool} {e : Ending} : ∀ x ∈ e.separator last, x.Valid := by
  cases e <;> simp [Ending.separator, Lexeme.Valid]

/-- The start of a statement can be written if its name is an atom and its origin well-formed. -/
theorem valid_headLexemes {name : String} {origin : Option Origin} (hname : IsAtom name)
    (h : ∀ o ∈ origin, o.WellFormed strict final) : ∀ x ∈ headLexemes name origin, x.Valid := by
  intro x hx
  rcases List.mem_cons.1 hx with rfl | hx
  · exact hname
  · cases origin with
    | none => simp at hx
    | some o =>
      rcases List.mem_cons.1 hx with rfl | hx
      · trivial
      · exact (h o rfl).valid x hx

/-- What well-formed statements consist of can be written. -/
theorem Statement.WellFormed.valid (h : WellFormed strict final ts) :
    ∀ x ∈ lexemes ts, x.Valid := by
  -- on the shape of the list: what can be written of it is put together from its parts
  induction h with
  | nil => simp [lexemes]
  | cons hname horigin hts ih =>
    intro x hx
    rw [lexemes_cons_none] at hx
    rcases List.mem_append.1 hx with hx | hx
    · exact valid_headLexemes hname horigin x hx
    · rcases List.mem_append.1 hx with hx | hx
      · exact Ending.valid_separator x hx
      · exact ih x hx
  | block hname horigin hne hinner hts ih₁ ih₂ =>
    intro x hx
    rw [lexemes_cons_some] at hx
    rcases List.mem_append.1 hx with hx | hx
    · exact valid_headLexemes hname horigin x hx
    · simp only [List.mem_cons, List.mem_append] at hx
      rcases hx with rfl | hx | rfl | rfl | hx
      · trivial
      · exact ih₁ x hx
      · trivial
      · trivial
      · exact ih₂ x hx

/-- **Image of the parser.** A list of statements is the result of a parse if, and only if, it is
well-formed and its blocks nest within the limit. -/
theorem exists_parse_eq_ok_iff (limit : Nat) (ts : List Statement) :
    (∃ source, parse source limit = .ok ts) ↔ WellFormed false true ts ∧ nesting ts ≤ limit := by
  constructor
  · rintro ⟨source, h⟩
    obtain ⟨h, hlimit⟩ := document_of_parse h
    exact ⟨h.wellFormed, hlimit⟩
  · rintro ⟨h, hlimit⟩
    -- any layout is a source
    obtain ⟨s, hs⟩ := exists_layout h.valid
    refine ⟨String.ofList s, parse_of_document ?_ hlimit⟩
    rw [String.toList_ofList]
    exact document_of_layout h hs

end FieldMapping
