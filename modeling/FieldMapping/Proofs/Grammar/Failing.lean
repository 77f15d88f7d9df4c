import FieldMapping.Proofs.Grammar.Broken
import FieldMapping.Proofs.Grammar.Parsing

/-!
# Failing readers and broken rules

Each reader fails on exactly the texts that are broken for its grammar rule, with the cause and at
the place that the broken rule gives. As with success, one thing is not in the rules: where nothing
but white space is left, the reader of a value does not fail. What is read behind the value fails
then, for the same cause and at the same place, so the two together fail as the rules say
(`fails_item_iff`).

`parse_eq_error_iff` puts the readers together: a parse reports an error if, and only if, the text
is broken for the grammar, and the report is made of the cause and the place.
-/

namespace FieldMapping.Grammar

open Text Scan

variable {o : Operator} {s t u r : List Char} {cause : Cause}

/-! ### Failures -/

/-- The act of reading `x` fails at `r`, for the reason `cause`. -/
def Fails {β : Type} (x : Except Fault β) (cause : Cause) (r : List Char) : Prop :=
  ∃ rest, x = .error ⟨cause, r, rest⟩

section Fails

variable {α β : Type} {x : Except Fault (α × List Char)} {f : α × List Char → Except Fault β}

/-- An act of reading that has a result does not fail. -/
@[simp] theorem not_fails_ok {b : β} : ¬ Fails (.ok b) cause r := by
  simp [Fails]

/-- A failure fails for its own cause, at its own place. What is left of the text behind the place
does not count. -/
@[simp] theorem fails_error_iff {g : Fault} :
    Fails (.error g : Except Fault β) cause r ↔ g.cause = cause ∧ g.place = r := by
  constructor
  · rintro ⟨rest, h⟩
    cases h
    exact ⟨rfl, rfl⟩
  · rintro ⟨rfl, rfl⟩
    exact ⟨g.rest, rfl⟩

/-- Two acts of reading in a row fail if the first does, or the second does on its result. -/
theorem fails_bind_iff : Fails (x >>= f) cause r ↔
    Fails x cause r ∨ ∃ a t, x = .ok (a, t) ∧ Fails (f (a, t)) cause r := by
  cases x with
  | error g => simp [bind, Except.bind]
  | ok p =>
    constructor
    · intro h
      exact .inr ⟨p.1, p.2, rfl, h⟩
    · rintro (h | ⟨a, t, h, hf⟩)
      · exact absurd h not_fails_ok
      · cases h
        exact hf

/-- An act of reading whose result is only worked on by acts that do not fail. -/
theorem fails_bind_iff_left (hf : ∀ a t, ¬ Fails (f (a, t)) cause r) :
    Fails (x >>= f) cause r ↔ Fails x cause r := by
  rw [fails_bind_iff, or_iff_left]
  rintro ⟨a, t, -, h⟩
  exact hf a t h

/-- An act of reading whose result is only turned into another one fails if it fails itself. -/
theorem fails_bind_ok_iff {g : α × List Char → β} :
    Fails (x >>= fun p => .ok (g p)) cause r ↔ Fails x cause r :=
  fails_bind_iff_left fun _ _ => not_fails_ok

/-- There is one cause of a failure, and one place. -/
theorem Fails.unique {y : Except Fault β} {cause' : Cause} {r' : List Char} (h : Fails y cause r)
    (h' : Fails y cause' r') : cause = cause' ∧ r = r' := by
  obtain ⟨rest, rfl⟩ := h
  exact fails_error_iff.1 h'

/-- An unexpected token is reported behind the blanks that stand in front of it, under its own
name. -/
theorem fails_unexpected_iff :
    Fails (.error (unexpected s) : Except Fault β) cause r ↔
      Skips isBlank s r ∧ cause = found r := by
  have h : unexpected s = ⟨found (significant s), significant s, (nextToken s).2⟩ := by
    simp only [unexpected, found, nextToken_fst]
    rfl
  rw [h, fails_error_iff, skips_iff]
  constructor
  · rintro ⟨rfl, rfl⟩
    exact ⟨rfl, rfl⟩
  · rintro ⟨rfl, rfl⟩
    exact ⟨rfl, rfl⟩

end Fails

/-! ### Tokens, plain values and literals -/

/-- An operator that is not taken does not come next. -/
theorem not_sign_of_nextToken (h : ∀ r, nextToken s = (.operator o, r) → False) (t : List Char) :
    ¬ Sign o s t :=
  fun ht => h _ (nextToken_of_sign ht)

/-- What is reported where none of a few operators is taken is that they are missing. -/
theorem missing_of_fails {β : Type} {os : List Operator}
    (hno : ∀ o ∈ os, ∀ r, nextToken s = (.operator o, r) → False)
    (h : Fails (.error (unexpected s) : Except Fault β) cause r) : Sign.Missing os s cause r :=
  ⟨fun o ho => not_sign_of_nextToken (hno o ho), fails_unexpected_iff.1 h⟩

/-- Where none of the operators is found that could stand there, the next token is unexpected. -/
theorem Sign.Missing.fails {β : Type} {os : List Operator} (h : Sign.Missing os s cause r) :
    Fails (.error (unexpected s) : Except Fault β) cause r :=
  fails_unexpected_iff.2 h.2

/-- What holds of the text behind the operator that comes next holds behind one that does. -/
theorem exists_sign_iff {P : List Char → Prop} (h : Sign o s t) :
    (∃ u, Sign o s u ∧ P u) ↔ P t := by
  constructor
  · rintro ⟨u, hu, hp⟩
    rwa [(h.unique hu).2]
  · intro hp
    exact ⟨t, h, hp⟩

/-- An operator that is found is not missing. -/
theorem not_missing_of_sign {os : List Operator} (ho : o ∈ os) (h : Sign o s t) :
    ¬ Sign.Missing os s cause r :=
  fun hr => hr.1 o ho t h

/-- There is one place that skipping characters leads to. -/
theorem Skips.unique {p : Char → Bool} (h : Skips p s t) (h' : Skips p s u) : t = u :=
  (skips_iff.1 h).symm.trans (skips_iff.1 h')

/-- The reader of a plain value fails where the value is missing, but not at the end of the text. -/
theorem fails_value_iff : Fails (value s) cause r ↔ Atom.Missing s cause r ∧ r ≠ [] := by
  unfold value
  split <;> rename_i hs
  · -- nothing but white space: no failure
    have hs : Skips isSpace s [] := skips_iff.2 hs
    simp only [not_fails_ok, false_iff, not_and, ne_eq, not_not]
    rintro ⟨hr, -⟩
    exact hr.unique hs
  · rename_i c t
    -- the first character behind the white space decides
    have hs : Skips isSpace s (c :: t) := skips_iff.2 hs
    split <;> rename_i hc
    · rw [fails_error_iff]
      constructor
      · rintro ⟨rfl, rfl⟩
        exact ⟨⟨hs, by simpa [Stops, Fault.here] using hc, rfl⟩, by simp [Fault.here]⟩
      · rintro ⟨⟨hr, -, rfl⟩, -⟩
        obtain rfl := hr.unique hs
        exact ⟨rfl, rfl⟩
    · simp only [not_fails_ok, false_iff, not_and]
      rintro ⟨hr, hstop, -⟩
      obtain rfl := hr.unique hs
      exact absurd (hstop c rfl) hc

/-- The reader of a literal fails, where one starts, if its second quote is missing. -/
theorem fails_quoted_iff (h : QuoteNext s) : Fails (quoted s) cause r ↔ ∃ q body,
    Skips isBlank s (q :: body) ∧ isQuote q = true ∧ q ∉ body ∧ cause = .unclosedQuote q ∧
      r = [] := by
  obtain ⟨q, t, hq, hs⟩ := h
  have hiff : Fails (quoted s) cause r ↔ q ∉ t ∧ cause = .unclosedQuote q ∧ r = [] := by
    have hs : significant s = q :: t := skips_iff.1 hs
    unfold quoted
    simp only [hs, hq, if_true]
    split <;> rename_i hd
    · have hd : q ∉ t := by
        intro hmem
        simpa using List.dropWhile_eq_nil_iff.1 hd q hmem
      simp [Fault.here, hd, eq_comm]
    · -- the second quote is where the body stops
      obtain ⟨body, rfl, -, hc⟩ := dropWhile_eq_iff.1 hd
      simp_all
  -- the quote and the body are the only ones that `s` can be skipped to
  rw [hiff]
  constructor
  · rintro ⟨hbody, hcause, hr⟩
    exact ⟨q, t, hs, hq, hbody, hcause, hr⟩
  · rintro ⟨q', t', hs', -, hbody, hcause, hr⟩
    obtain ⟨rfl, rfl⟩ := List.cons.inj (hs'.unique hs)
    exact ⟨hbody, hcause, hr⟩

/-- An act of reading behind a plain value that needs more than the end of the text fails where the
value is missing, at the end of the text as elsewhere. -/
theorem fails_value_bind_iff {β : Type} {f : String × List Char → Except Fault β}
    (hf : Fails (f ("", [])) (found []) []) : Fails (value s >>= f) cause r ↔
      Atom.Missing s cause r ∨ ∃ a t, Atom s a t ∧ Fails (f (a, t)) cause r := by
  rw [fails_bind_iff, fails_value_iff]
  constructor
  · rintro (⟨h, -⟩ | ⟨a, t, ha, h⟩)
    · exact .inl h
    · rcases value_eq_ok_iff.1 ha with ha | ⟨hs, rfl, rfl⟩
      · exact .inr ⟨a, t, ha, h⟩
      · obtain ⟨rfl, rfl⟩ := h.unique hf
        exact .inl ⟨hs, by simp [Stops], rfl⟩
  · rintro (⟨hs, hstop, rfl⟩ | ⟨a, t, ha, h⟩)
    · -- at the end of the text the reader gives an empty value, and what is read behind it fails
      by_cases hr : r = []
      · subst hr
        exact .inr ⟨"", [], value_eq_ok_iff.2 (.inr ⟨hs, rfl, rfl⟩), hf⟩
      · exact .inl ⟨⟨hs, hstop, rfl⟩, hr⟩
    · exact .inr ⟨a, t, value_of_atom ha, h⟩

/-! ### Values -/

/-- A literal does not start behind white space that a quote does not end. -/
theorem not_quoteNext_of_skips (h : Skips isSpace s t) (ht : ∀ c ∈ t.head?, isQuote c = false) :
    ¬ QuoteNext s := by
  rintro ⟨q, v, hq, w, rfl, hw, -⟩
  have hskip : Skips isSpace (w ++ q :: v) (q :: v) :=
    ⟨w, rfl, fun c hc => isSpace_of_isBlank (hw c hc), by simpa using isSpace_of_isQuote hq⟩
  obtain rfl := h.unique hskip
  simp [ht q rfl] at hq

/-- Where a plain value is read, not only white space is left. -/
theorem Atom.not_skips {a : String} (h : Atom s a t) : ¬ Skips isSpace s [] := by
  intro hs
  obtain ⟨run, hrun, hne, -⟩ := h
  exact hne (List.append_eq_nil_iff.1 (hrun.unique hs)).1

/-- The reader of a value fails on a broken value that is not missing at the end of the text. -/
theorem fails_read_iff : Fails (Value.read s) cause r ↔
    Val.Broken s cause r ∧ ¬ Skips isSpace s [] := by
  unfold Value.read
  by_cases hq : QuoteNext s
  · -- a literal starts here: only its second quote can be missing
    rw [if_pos (startsQuoted_iff.2 hq), fails_bind_ok_iff, fails_quoted_iff hq]
    constructor
    · rintro ⟨q, body, hs, hquote, hbody, rfl, rfl⟩
      exact ⟨.quote hs hquote hbody, fun h => not_quoteNext_of_skips h (by simp) hq⟩
    · rintro ⟨h, -⟩
      cases h with
      | quote hs hquote hbody => exact ⟨_, _, hs, hquote, hbody, rfl, rfl⟩
      | base hn => exact absurd hq hn
      | index hn => exact absurd hq hn
      | bracket hn => exact absurd hq hn
  · -- a plain value starts here, and an index may follow it
    rw [if_neg (startsQuoted_iff.not.2 hq), fails_bind_iff, fails_value_iff]
    constructor
    · rintro (⟨h, hr⟩ | ⟨base, t, hbase, h⟩)
      · exact ⟨.base hq h, fun hs => hr (h.1.unique hs)⟩
      · dsimp only at h
        split at h <;> rename_i u hu
        · rw [nextToken_eq_iff (by decide)] at hu
          rcases value_eq_ok_iff.1 hbase with hbase | ⟨-, -, rfl⟩
          · refine ⟨?_, hbase.not_skips⟩
            rcases (fails_value_bind_iff ⟨_, rfl⟩).1 h with h | ⟨index, x, hindex, h⟩
            · exact .index hq hbase hu h
            · dsimp only at h
              split at h <;> rename_i hc
              · exact absurd h not_fails_ok
              · exact .bracket hq hbase hu hindex (missing_of_fails (by simpa using hc) h)
          · exact absurd hu not_sign_nil
        · exact absurd h not_fails_ok
    · rintro ⟨h, hs⟩
      cases h with
      | quote hs' hquote hbody => exact absurd ⟨_, _, hquote, hs'⟩ hq
      | base hn h => exact .inl ⟨h, fun hr => hs (hr ▸ h.1)⟩
      | index hn hbase hu h =>
        refine .inr ⟨_, _, value_of_atom hbase, ?_⟩
        simp only [(nextToken_eq_iff (by decide)).2 hu]
        exact (fails_value_bind_iff ⟨_, rfl⟩).2 (.inl h)
      | bracket hn hbase hu hindex h =>
        refine .inr ⟨_, _, value_of_atom hbase, ?_⟩
        simp only [(nextToken_eq_iff (by decide)).2 hu]
        refine (fails_value_bind_iff ⟨_, rfl⟩).2 (.inr ⟨_, _, hindex, ?_⟩)
        dsimp only
        split <;> rename_i hc
        · exact absurd h (not_missing_of_sign (by simp) ((nextToken_eq_iff (by decide)).1 hc))
        · exact h.fails

/-- At the end of the text, the reader of a value finds nothing. -/
theorem read_of_skips (hs : Skips isSpace s []) : Value.read s = .ok (.scalar "", []) := by
  have hq : ¬ QuoteNext s := not_quoteNext_of_skips hs (by simp)
  unfold Value.read
  rw [if_neg (startsQuoted_iff.not.2 hq), Fault.bind_eq_ok_iff]
  exact ⟨"", [], value_eq_ok_iff.2 (.inr ⟨hs, rfl, rfl⟩), rfl⟩

/-- A value that breaks off where only white space is left is missing there, at the end of the
text. -/
theorem Val.Broken.of_skips (h : Val.Broken s cause r) (hs : Skips isSpace s []) :
    cause = found [] ∧ r = [] := by
  cases h with
  | quote hs' hquote => exact absurd ⟨_, _, hquote, hs'⟩ (not_quoteNext_of_skips hs (by simp))
  | base hn h =>
    obtain ⟨hr, -, rfl⟩ := h
    obtain rfl := hr.unique hs
    exact ⟨rfl, rfl⟩
  | index hn hbase => exact absurd hs hbase.not_skips
  | bracket hn hbase => exact absurd hs hbase.not_skips

/-- An act of reading behind a value that needs more than the end of the text fails where the value
is missing, at the end of the text as elsewhere. -/
theorem fails_read_bind_iff {β : Type} {f : Value × List Char → Except Fault β}
    (hf : Fails (f (.scalar "", [])) (found []) []) : Fails (Value.read s >>= f) cause r ↔
      Val.Broken s cause r ∨ ∃ v t, Val s v t ∧ Fails (f (v, t)) cause r := by
  rw [fails_bind_iff, fails_read_iff]
  constructor
  · rintro (⟨h, -⟩ | ⟨v, t, hv, h⟩)
    · exact .inl h
    · rcases val_of_read hv with hv | ⟨hs, rfl, rfl⟩
      · exact .inr ⟨v, t, hv, h⟩
      · obtain ⟨rfl, rfl⟩ := h.unique hf
        exact .inl (.base (not_quoteNext_of_skips hs (by simp)) ⟨hs, by simp [Stops], rfl⟩)
  · rintro (h | ⟨v, t, hv, h⟩)
    · by_cases hs : Skips isSpace s []
      · -- the reader finds nothing, and what is read behind it fails instead
        obtain ⟨rfl, rfl⟩ := h.of_skips hs
        exact .inr ⟨_, _, read_of_skips hs, hf⟩
      · exact .inl ⟨h, hs⟩
    · exact .inr ⟨v, t, read_of_val hv, h⟩

/-! ### Parameters and arguments -/

/-- The end of an item fails where there is neither a comma nor the end of the list. -/
theorem fails_itemEnd_iff :
    Fails (itemEnd s) cause r ↔ Sign.Missing [.comma, .closeParen] s cause r := by
  unfold itemEnd
  split <;> rename_i h
  · obtain ⟨t, ht, -⟩ := nextToken_eq_comma_iff.1 h
    simpa using not_missing_of_sign (by simp) ht
  · simpa using not_missing_of_sign (by simp) ((nextToken_eq_iff (by decide)).1 h)
  · rename_i h'
    exact ⟨missing_of_fails (by simpa using ⟨h', h⟩), Sign.Missing.fails⟩

/-- A value and the end of its item fail as a broken value or a missing end. -/
theorem fails_item_iff {α : Type} {g : Value → Bool → α} :
    Fails (Value.read s >>= fun p => itemEnd p.2 >>= fun q => .ok (g p.1 q.1, q.2)) cause r ↔
      Val.Broken s cause r ∨ ∃ v t, Val s v t ∧ Sign.Missing [.comma, .closeParen] t cause r := by
  rw [fails_read_bind_iff ⟨_, rfl⟩]
  simp only [fails_bind_ok_iff, fails_itemEnd_iff]

/-- The reader of a parameter fails on parameters that are broken in their first item. -/
theorem fails_param_iff : Fails (Param.readItem s) cause r ↔
    Atom.Missing s cause r ∨ ∃ k t, Atom s k t ∧
      (Sign.Missing [.closeParen, .colon] t cause r ∨ ∃ u, Sign .colon t u ∧
        (Val.Broken u cause r ∨ ∃ v x, Val u v x ∧
          Sign.Missing [.comma, .closeParen] x cause r)) := by
  rw [Param.readItem, fails_value_bind_iff ⟨_, rfl⟩]
  refine or_congr Iff.rfl (exists_congr fun k => exists_congr fun t => and_congr_right fun _ => ?_)
  dsimp only
  split <;> rename_i h
  · -- the list ends behind the key
    rw [nextToken_eq_iff (by decide)] at h
    simp only [not_fails_ok, false_iff, not_or, not_exists, not_and]
    exact ⟨not_missing_of_sign (by simp) h, fun u hu => absurd (h.unique hu).1 (by decide)⟩
  · -- a value follows the key
    rename_i u
    rw [nextToken_eq_iff (by decide)] at h
    rw [fails_item_iff (g := fun v more => ((⟨k, some v⟩ : Param), more))]
    constructor
    · intro h'
      exact .inr ⟨u, h, h'⟩
    · rintro (h' | ⟨u', hu', h'⟩)
      · exact absurd h' (not_missing_of_sign (by simp) h)
      · rwa [(h.unique hu').2]
  · rename_i h'
    constructor
    · intro hfail
      exact .inl (missing_of_fails (by simpa using ⟨h', h⟩) hfail)
    · rintro (hmissing | ⟨u, hu, -⟩)
      · exact hmissing.fails
      · exact absurd hu (not_sign_of_nextToken h u)

/-- The reader of an argument fails on a broken value and on a missing end of the item. -/
theorem fails_arg_iff : Fails (Processor.readArg s) cause r ↔
    Val.Broken s cause r ∨ ∃ v t, Val s v t ∧ Sign.Missing [.comma, .closeParen] t cause r :=
  fails_item_iff (g := Prod.mk)

/-- A list that fails is in every relation that its failing item, and the items before it, build. -/
theorem of_fails_readAll {α : Type} {item : ItemReader α}
    {R : List Char → Cause → List Char → Prop}
    (fails : ∀ {s cause r}, Fails (item.read s) cause r → R s cause r)
    (more : ∀ {s a t cause r}, item.read s = .ok ((a, true), t) → R t cause r → R s cause r)
    (h : Fails (item.readAll s) cause r) : R s cause r := by
  fun_induction item.readAll s with
  | case1 s f hf =>
    obtain ⟨rfl, rfl⟩ := fails_error_iff.1 h
    exact fails ⟨f.rest, hf⟩
  | case2 s a t ht => exact absurd h not_fails_ok
  | case3 s a t ht ih => exact more ht (ih (fails_bind_ok_iff.1 h))

/-- A list fails where its first item does. -/
theorem fails_readAll_of_item {α : Type} {item : ItemReader α} (h : Fails (item.read s) cause r) :
    Fails (item.readAll s) cause r := by
  obtain ⟨rest, h⟩ := h
  exact ⟨rest, ItemReader.readAll_of_error h⟩

/-- A list fails where it does behind its first item. -/
theorem fails_readAll_of_more {α : Type} {item : ItemReader α} {a : α}
    (h : item.read s = .ok ((a, true), t)) (h' : Fails (item.readAll t) cause r) :
    Fails (item.readAll s) cause r := by
  rw [ItemReader.readAll_of_more h]
  exact fails_bind_ok_iff.2 h'

/-- The reader of parameters fails on broken parameters. -/
theorem fails_params_iff : Fails (Param.item.readAll s) cause r ↔ Params.Broken s cause r := by
  constructor
  · refine of_fails_readAll (fun {s cause r} h => ?_) (fun {s p t cause r} h ht => ?_)
    · rcases fails_param_iff.1 h with h | ⟨k, t, hk, h | ⟨u, hu, h | ⟨v, x, hv, h⟩⟩⟩
      · exact .key h
      · exact .sign hk h
      · exact .value hk hu h
      · exact .behind hk hu hv h
    · -- an item that is read with more behind it stands in front of what fails
      rcases of_readItem h with ⟨_, _, _, _, _, ⟨⟩⟩ | ⟨k, v, t, u, x, hk, hc, hv, hend, rfl⟩
      obtain ⟨y, hy, hz⟩ := itemEnd_eq_ok_true_iff.1 hend
      exact .more hk hc hv hy hz ht
  · intro h
    -- each rule is one way of the first item to fail, or the list behind it
    induction h with
    | key h => exact fails_readAll_of_item (fails_param_iff.2 (.inl h))
    | sign hk h => exact fails_readAll_of_item (fails_param_iff.2 (.inr ⟨_, _, hk, .inl h⟩))
    | value hk hu h =>
      exact fails_readAll_of_item (fails_param_iff.2 (.inr ⟨_, _, hk, .inr ⟨_, hu, .inl h⟩⟩))
    | behind hk hu hv h =>
      exact fails_readAll_of_item
        (fails_param_iff.2 (.inr ⟨_, _, hk, .inr ⟨_, hu, .inr ⟨_, _, hv, h⟩⟩⟩))
    | more hk hc hv hy hz _ ih =>
      exact fails_readAll_of_more
        (readItem_of_val hk hc hv (itemEnd_eq_ok_true_iff.2 ⟨_, hy, hz⟩)) ih

/-- The reader of arguments fails on broken arguments. -/
theorem fails_args_iff : Fails (Processor.arg.readAll s) cause r ↔ Args.Broken s cause r := by
  constructor
  · refine of_fails_readAll (fun {s cause r} h => ?_) (fun {s v t cause r} h ht => ?_)
    · rcases fails_arg_iff.1 h with h | ⟨v, t, hv, h⟩
      · exact .value h
      · exact .behind hv h
    · obtain ⟨x, hv, hend⟩ := of_readArg h
      obtain ⟨y, hy, hz⟩ := itemEnd_eq_ok_true_iff.1 hend
      exact .more hv hy hz ht
  · intro h
    induction h with
    | value h => exact fails_readAll_of_item (fails_arg_iff.2 (.inl h))
    | behind hv h => exact fails_readAll_of_item (fails_arg_iff.2 (.inr ⟨_, _, hv, h⟩))
    | more hv hy hz _ ih =>
      exact fails_readAll_of_more (readArg_of_val hv (itemEnd_eq_ok_true_iff.2 ⟨_, hy, hz⟩)) ih

/-! ### Processors and origins -/

/-- Arguments fail only where a parenthesis opens them. -/
theorem fails_readArgs_iff : Fails (Processor.readArgs s) cause r ↔
    ∃ t, Sign .openParen s t ∧ Args.Broken t cause r := by
  unfold Processor.readArgs
  split <;> rename_i h
  · rw [nextToken_eq_iff (by decide)] at h
    rw [fails_args_iff, exists_sign_iff h]
  · simp [not_sign_of_nextToken h]

/-- Behind its name, the reader of a processor fails on broken arguments only. -/
theorem fails_stage_iff : Fails (Processor.readItem s) cause r ↔
    Atom.Missing s cause r ∧ r ≠ [] ∨
      ∃ name t, Atom s name t ∧ ∃ u, Sign .openParen t u ∧ Args.Broken u cause r := by
  rw [Processor.readItem, fails_bind_iff, fails_value_iff]
  refine or_congr Iff.rfl (exists_congr fun name => exists_congr fun t => ?_)
  dsimp only
  rw [fails_bind_iff_left fun args u h => ?_, fails_readArgs_iff]
  · constructor
    · rintro ⟨hname, u, hu, h⟩
      rcases value_eq_ok_iff.1 hname with ha | ⟨-, -, rfl⟩
      · exact ⟨ha, u, hu, h⟩
      · exact absurd hu not_sign_nil
    · rintro ⟨ha, h⟩
      exact ⟨value_of_atom ha, h⟩
  · -- whether a bar follows or not, the processor has been read
    dsimp only at h
    split at h <;> exact not_fails_ok h

/-- The reader of processors fails on a broken row of them. -/
theorem fails_stages_iff : Fails (Processor.item.readAll s) cause r ↔ Stages.Broken s cause r := by
  constructor
  · refine of_fails_readAll (fun {s cause r} h => ?_) (fun {s p t cause r} h ht => ?_)
    · rcases fails_stage_iff.1 h with ⟨h, hr⟩ | ⟨name, t, hname, u, hu, h⟩
      · exact .name h hr
      · exact .args hname hu h
    · obtain ⟨u, hp, hbar⟩ := readItem_eq_ok_iff.1 h
      exact .more hp hbar ht
  · intro h
    induction h with
    | name h hr => exact fails_readAll_of_item (fails_stage_iff.2 (.inl ⟨h, hr⟩))
    | args hname hu h =>
      exact fails_readAll_of_item (fails_stage_iff.2 (.inr ⟨_, _, hname, _, hu, h⟩))
    | more hp hbar _ ih => exact fails_readAll_of_more (readItem_eq_ok_iff.2 ⟨_, hp, hbar⟩) ih

/-- A pipeline fails only where a bar opens it. -/
theorem fails_readPipeline_iff : Fails (Processor.readPipeline s) cause r ↔
    ∃ t, Sign .bar s t ∧ Stages.Broken t cause r := by
  unfold Processor.readPipeline
  split <;> rename_i h
  · rw [nextToken_eq_iff (by decide)] at h
    rw [fails_bind_ok_iff, fails_stages_iff, exists_sign_iff h]
  · simp [not_sign_of_nextToken h]

/-- Behind the name of a type, reading fails on broken parameters, on a broken pipeline, and on what
cannot stand there. -/
theorem fails_readAfter_iff {name : String} : Fails (TypeRef.readAfter name s) cause r ↔
    (∃ t, Sign .openParen s t ∧ Params.Broken t cause r) ∨
    (∃ params t, Optional .openParen Params s params t ∧
      ∃ u, Sign .bar t u ∧ Stages.Broken u cause r) ∨
    Sign.Missing [.openParen, .bar, .openBrace, .closeBrace, .comma, .newline] s cause r ∧
      r ≠ [] := by
  unfold TypeRef.readAfter
  split <;> rename_i h
  · -- a parenthesis comes next: parameters, and then a pipeline if there is one
    rw [nextToken_eq_iff (by decide)] at h
    simp only [fails_bind_iff, fails_params_iff, readAll_params_iff, fails_readPipeline_iff,
      not_fails_ok, and_false, exists_false, or_false, exists_sign_iff h, optional_iff_of_sign h,
      not_missing_of_sign (List.mem_cons_self ..) h, false_and]
    refine or_congr Iff.rfl ?_
    constructor
    · rintro ⟨params, t, hps, h'⟩
      exact ⟨some params, t, ⟨params, rfl, hps⟩, h'⟩
    · rintro ⟨_, t, ⟨params, rfl, hps⟩, h'⟩
      exact ⟨params, t, hps, h'⟩
  · -- a bar comes next: a pipeline without parameters
    rw [nextToken_eq_iff (by decide)] at h
    have hno : ∀ t, ¬ Sign .openParen s t := fun t ht => nomatch (h.unique ht).1
    simp only [fails_bind_ok_iff, fails_readPipeline_iff, hno, false_and, exists_false, false_or,
      optional_iff_of_not_sign hno, exists_sign_iff h]
    constructor
    · intro h'
      exact .inl ⟨none, s, ⟨rfl, rfl⟩, _, h, h'⟩
    · rintro (⟨_, _, ⟨rfl, rfl⟩, u, hu, h'⟩ | ⟨h', -⟩)
      · rwa [(h.unique hu).2]
      · exact absurd h' (not_missing_of_sign (by simp) h)
  · -- neither comes next: a bare name, whose end is checked
    rename_i token t hparen hbar
    have hno : ∀ o, token ≠ .operator o → ∀ u, ¬ Sign o s u := by
      intro o ho u hu
      rw [nextToken_of_sign hu] at h
      exact ho (Prod.mk.inj h).1.symm
    have hends : token.endsTypeRef = true ↔ EndsType s := by rw [endsType_iff, h]
    have hpipe : ¬ ∃ params t, Optional .openParen Params s params t ∧
        ∃ u, Sign .bar t u ∧ Stages.Broken u cause r := by
      rintro ⟨params, t, hps, u, hu, -⟩
      obtain ⟨-, rfl⟩ := (optional_iff_of_not_sign (hno _ hparen)).1 hps
      exact hno _ hbar u hu
    simp only [hno _ hparen, hpipe, false_and, exists_false, false_or]
    split <;> rename_i hok <;> rw [hends] at hok
    · rw [iff_false_intro not_fails_ok, false_iff]
      rintro ⟨hmissing, hr⟩
      rcases hok with ⟨o, u, ho, hu⟩ | hend
      · exact not_missing_of_sign (by simp_all) hu hmissing
      · exact hr (hmissing.2.1.unique hend)
    · constructor
      · intro h'
        obtain ⟨hskip, rfl⟩ := fails_unexpected_iff.1 h'
        refine ⟨⟨?_, hskip, rfl⟩, fun hr => hok (.inr (hr ▸ hskip))⟩
        simp only [List.forall_mem_cons, List.not_mem_nil, false_imp_iff, implies_true, and_true]
        refine ⟨hno _ hparen, hno _ hbar, ?_, ?_, ?_, ?_⟩ <;>
          exact fun u hu => hok (.inl ⟨_, u, by simp, hu⟩)
      · exact fun h' => h'.1.fails

/-- Behind the name of a type, an origin fails as what stands there does. -/
theorem fails_origin_of_type {name : String} (ha : Atom s name t)
    (hname : ∀ c ∈ name.toList.head?, ¬ 'a' < c) (h : Fails (TypeRef.readAfter name t) cause r) :
    Fails (Origin.read s) cause r := by
  obtain ⟨c, hc, -⟩ := ha.head?_eq
  have hfield : startsField c = false := by simpa [startsField] using hname c hc
  rw [Origin.read, fails_bind_iff]
  refine .inr ⟨name, t, value_of_atom ha, ?_⟩
  simp only [hc, hfield, Bool.false_eq_true, if_false]
  exact fails_bind_ok_iff.2 h

/-- The reader of an origin fails on a broken origin. -/
theorem fails_origin_iff : Fails (Origin.read s) cause r ↔ Source.Broken s cause r := by
  constructor
  · intro h
    rw [Origin.read, fails_bind_iff, fails_value_iff] at h
    rcases h with ⟨h, hr⟩ | ⟨name, t, hname, h⟩
    · exact .name h hr
    · rcases value_eq_ok_iff.1 hname with ha | ⟨hs, rfl, rfl⟩
      · -- the first character decides between a field and a type
        obtain ⟨c, hc, -⟩ := ha.head?_eq
        simp only [hc] at h
        split at h <;> rename_i hfield
        · exact absurd h not_fails_ok
        · have hname : ∀ d ∈ name.toList.head?, ¬ 'a' < d := by
            intro d hd
            obtain rfl : c = d := by simpa [hc] using hd
            simpa [startsField] using hfield
          rw [fails_bind_ok_iff, fails_readAfter_iff] at h
          rcases h with ⟨u, hu, h⟩ | ⟨params, u, hps, x, hx, h⟩ | ⟨h, hr⟩
          · exact .params ha hname hu h
          · exact .stages ha hname hps hx h
          · exact .behind ha hname h hr
      · -- the reader of the name found nothing, so the origin is missing at the end of the text
        obtain ⟨rfl, rfl⟩ := fails_error_iff.1 h
        exact .missing hs
  · intro h
    cases h with
    | name h hr =>
      rw [Origin.read, fails_bind_iff, fails_value_iff]
      exact .inl ⟨h, hr⟩
    | missing hs =>
      rw [Origin.read, fails_bind_iff]
      exact .inr ⟨"", [], value_eq_ok_iff.2 (.inr ⟨hs, rfl, rfl⟩), [], rfl⟩
    | params ha hname hu h =>
      exact fails_origin_of_type ha hname (fails_readAfter_iff.2 (.inl ⟨_, hu, h⟩))
    | stages ha hname hps hx h =>
      exact fails_origin_of_type ha hname
        (fails_readAfter_iff.2 (.inr (.inl ⟨_, _, hps, _, hx, h⟩)))
    | behind ha hname h hr =>
      exact fails_origin_of_type ha hname (fails_readAfter_iff.2 (.inr (.inr ⟨h, hr⟩)))

/-- An origin fails only where a colon is in front of it. -/
theorem fails_readOptional_iff : Fails (Origin.readOptional s) cause r ↔
    ∃ t, Sign .colon s t ∧ Source.Broken t cause r := by
  unfold Origin.readOptional
  split <;> rename_i h
  · rw [nextToken_eq_iff (by decide)] at h
    rw [fails_bind_ok_iff, fails_origin_iff, exists_sign_iff h]
  · simp [not_sign_of_nextToken h]

/-! ### Statements -/

section Statements

variable {limit : Nat} {w w' : Walk} {outcome : Outcome} {name : String} {origin : Option Origin}

/-- A pass that is stopped by a failure fails with it. -/
theorem fails_stop_iff {f : Fault} :
    Fails (w.stop 0 f).result cause r ↔ f.cause = cause ∧ f.place = r :=
  fails_error_iff

/-- The end of the text is a failure where a block is open. -/
theorem fails_finish_iff :
    Fails (w.finish 0).result cause r ↔ w.blocks ≠ [] ∧ cause = found [] ∧ r = [] := by
  unfold Walk.finish
  split <;> rename_i h
  · simp [h]
  · rw [h, fails_error_iff]
    constructor
    · rintro ⟨rfl, rfl⟩
      exact ⟨by simp, rfl, rfl⟩
    · rintro ⟨-, rfl, rfl⟩
      exact ⟨rfl, rfl⟩

/-- The ways in which a pass ends with a failure where a statement is due: at a broken start of a
statement, in front of a block that would lie too deep, and at the end of the text in a block. -/
theorem of_takeStatement_fails (h : w.takeStatement limit 0 s = .done outcome)
    (hf : Fails outcome.result cause r) :
    Statements.Broken limit w.blocks.length false s cause r := by
  unfold Walk.takeStatement at h
  split at h
  · rename_i f hvalue
    cases h
    obtain ⟨rfl, rfl⟩ := fails_stop_iff.1 hf
    obtain ⟨hname, hr⟩ := fails_value_iff.1 ⟨f.rest, hvalue⟩
    exact .head (.name hname hr)
  · rename_i name t hvalue
    split at h
    · rename_i hempty
      cases h
      -- the end of the text: it is a failure if a block is open
      obtain ⟨hblocks, rfl, rfl⟩ := fails_finish_iff.1 hf
      rcases value_eq_ok_iff.1 hvalue with ha | ⟨hs, -, -⟩
      · exact absurd hempty ha.ne_empty
      · obtain ⟨b, outer, hb⟩ := List.exists_cons_of_ne_nil hblocks
        rw [hb]
        exact .unclosed hs
    · rename_i hempty
      have ha : Atom s name t := by
        rcases value_eq_ok_iff.1 hvalue with ha | ⟨-, he, -⟩
        · exact ha
        · exact absurd he hempty
      dsimp only at h
      split at h
      · rename_i f horigin
        cases h
        obtain ⟨rfl, rfl⟩ := fails_stop_iff.1 hf
        obtain ⟨u, hu, ho⟩ := fails_readOptional_iff.1 ⟨f.rest, horigin⟩
        exact .head (.origin ha hu ho)
      · rename_i origin u horigin
        have hhead : Head s name origin u := ⟨t, ha, readOptional_eq_ok_iff.1 horigin⟩
        split at h
        · rename_i x hx
          split at h
          · cases h
          · -- the brace is the last thing that is read: the limit refuses its block
            rename_i hlimit
            cases h
            obtain ⟨rfl, rfl⟩ := fails_stop_iff.1 hf
            exact .tooDeep hhead ((nextToken_eq_iff (by decide)).1 hx)
              (by simpa [Walk.depth, Walk.visit] using hlimit)
        all_goals cases h

/-- A broken start of a statement ends the pass, with the failure of the start and in the block it
stands in. -/
theorem takeStatement_of_broken (h : Head.Broken s cause r) :
    ∃ outcome, w.takeStatement limit 0 s = .done outcome ∧ Fails outcome.result cause r ∧
      outcome.depth = w.depth 0 := by
  unfold Walk.takeStatement
  cases h with
  | name h hr =>
    obtain ⟨rest, hvalue⟩ := fails_value_iff.2 ⟨h, hr⟩
    simp only [hvalue]
    exact ⟨_, rfl, ⟨rest, rfl⟩, rfl⟩
  | origin ha hu ho =>
    obtain ⟨rest, horigin⟩ := fails_readOptional_iff.2 ⟨_, hu, ho⟩
    simp only [value_of_atom ha, if_neg ha.ne_empty, horigin]
    exact ⟨_, rfl, ⟨rest, rfl⟩, rfl⟩

/-- There is no block to close where none is open. -/
theorem closeBlock?_eq_none_iff : w.closeBlock? = none ↔ w.blocks = [] := by
  unfold Walk.closeBlock?
  split <;> simp_all

/-- A brace closes the innermost open block and leaves the pass behind the end of a statement. -/
theorem blocks_of_closeBlock? (h : w.closeBlock? = some w') :
    ∃ b, w.blocks = b :: w'.blocks ∧ w'.ended = true := by
  unfold Walk.closeBlock? at h
  split at h
  · cases h
  · rename_i b outer hb
    cases h
    exact ⟨b, hb, rfl⟩

/-- A pass that fails reads a broken text. -/
theorem broken_of_run (h : Fails (w.run limit 0 s).result cause r) :
    Statements.Broken limit w.blocks.length w.ended s cause r := by
  -- backwards along the run, one rule of the broken grammar for each kind of step
  fun_induction Walk.run limit 0 w s with
  | case1 w s w' t hstep ih =>
    -- what is broken behind a step is broken in front of it
    have htake : ∀ u, w.takeStatement limit 0 u = .next w' t →
        Statements.Broken limit w.blocks.length false u cause r := by
      intro u hu
      have ih := ih h
      obtain ⟨name, origin, x, hhead, ⟨hb, hlimit, rfl⟩ | ⟨he, rfl, rfl⟩ | ⟨hr, rfl⟩⟩ :=
        of_takeStatement_next hu
      · exact .block hhead hb (by simpa [Walk.depth] using hlimit) ih
      · exact .ended hhead he ih
      · exact .runOn hhead hr ih
    rcases step_cases limit 0 w s with ⟨he, heq⟩ | ⟨he, u, hu, hne, heq⟩ | ⟨he, u, hu⟩
    · rw [he]
      exact htake s (heq.symm.trans hstep)
    · rw [he]
      exact .separate hu hne (htake u (heq.symm.trans hstep))
    · rw [step_of_closeBrace he hu] at hstep
      split at hstep
      · rename_i w'' hclose
        cases hstep
        obtain ⟨b, hb, he'⟩ := blocks_of_closeBlock? hclose
        rw [he, hb]
        exact .close hu (he' ▸ ih h)
      · cases hstep
  | case2 w s outcome hdone =>
    rcases step_cases limit 0 w s with ⟨he, heq⟩ | ⟨he, u, hu, hne, heq⟩ | ⟨he, u, hu⟩
    · rw [he]
      exact of_takeStatement_fails (heq.symm.trans hdone) h
    · rw [he]
      exact .separate hu hne (of_takeStatement_fails (heq.symm.trans hdone) h)
    · -- a brace that closes nothing
      rw [step_of_closeBrace he hu] at hdone
      split at hdone
      · cases hdone
      · rename_i hclose
        cases hdone
        obtain ⟨rfl, rfl⟩ := fails_stop_iff.1 h
        rw [he, closeBlock?_eq_none_iff.1 hclose]
        exact .unopened hu

/-- Every pass that reads on in `s` has an outcome with the property `P`. It has `n` blocks open,
and the flag tells whether it stands behind the end of a statement. -/
def PassEnds (limit n : Nat) (e : Bool) (s : List Char) (P : Outcome → Prop) : Prop :=
  ∀ w : Walk, w.blocks.length = n → w.ended = e → P (w.run limit 0 s)

namespace PassEnds

variable {n : Nat} {P : Outcome → Prop}

/-- Every pass ends well behind the end of a statement if every pass does behind the separators
there. -/
theorem separate (hs : Skips Walk.isSeparating s t) (hne : t.head? ≠ some '}')
    (h : PassEnds limit n false t P) : PassEnds limit n true s P := by
  intro w hn he
  have hrun : w.run limit 0 s = Walk.run limit 0 { w with ended := false } t := by
    refine run_congr ?_
    rw [step_of_separators he hs hne, step_statement rfl]
    rfl
  rw [hrun]
  exact h _ hn rfl

/-- Every pass ends well in front of a block if every pass does inside it, one block deeper. -/
theorem block (hhead : Head s name origin t) (hb : Sign .openBrace t u) (hlimit : n < limit)
    (h : PassEnds limit (n + 1) false u P) : PassEnds limit n false s P := by
  intro w hn he
  have hopen : w.takeStatement limit 0 s = .next ((w.visit 0 name).openBlock name origin) u :=
    takeStatement_block hhead hb (by simpa [Walk.depth, hn])
  rw [Walk.run_of_next ((step_statement he).trans hopen)]
  exact h _ (congrArg (· + 1) hn) rfl

/-- Every pass ends well in front of the brace that ends its block if every pass does behind it. -/
theorem close (hs : Skips Walk.isSeparating s ('}' :: t)) (h : PassEnds limit n true t P) :
    PassEnds limit (n + 1) true s P := by
  intro w hn he
  cases hclose : w.closeBlock? with
  | none => simp [closeBlock?_eq_none_iff.1 hclose] at hn
  | some w' =>
    obtain ⟨b, hb, he'⟩ := blocks_of_closeBlock? hclose
    rw [Walk.run_of_next (step_close he hs hclose)]
    exact h w' (by simpa [hb] using hn) he'

/-- Every pass ends well in front of a statement if every pass does at the separator behind it. -/
theorem ended (hhead : Head s name origin t) (hends : EndsStatement t)
    (h : PassEnds limit n true t P) : PassEnds limit n false s P := by
  intro w hn he
  rw [Walk.run_of_next ((step_statement he).trans (takeStatement_ended hhead hends))]
  exact h _ hn rfl

/-- Every pass ends well in front of a statement if every pass does at the next one, which it runs
on to. -/
theorem runOn (hhead : Head s name origin t) (hr : RunsOn t u) (h : PassEnds limit n false u P) :
    PassEnds limit n false s P := by
  intro w hn he
  rw [Walk.run_of_next ((step_statement he).trans (takeStatement_runOn hhead hr))]
  exact h _ hn rfl

end PassEnds

/-- A pass over a broken text fails in the way in which the text is broken. With a higher limit, it
may also go on behind the brace of a block that lies too deep. -/
theorem run_of_broken_le {limit' n : Nat} {e : Bool} (h : Statements.Broken limit n e s cause r)
    (hle : limit ≤ limit') (hn : n ≤ limit) : PassEnds limit' n e s fun outcome =>
      Fails outcome.result cause r ∨
        limit < limit' ∧ cause = .tooDeep limit ∧ ∃ w : Walk, outcome = w.run limit' 0 r := by
  -- on the way the text is broken, for every pass that reads on there
  induction h with
  | head h =>
    intro w _ he
    -- what is broken at the start of a statement does not depend on the limit
    obtain ⟨outcome, hdone, hf, -⟩ := takeStatement_of_broken (w := w) h
    rw [Walk.run_of_done ((step_statement he).trans hdone)]
    exact .inl hf
  | @tooDeep n s t r name origin hhead hb hlimit =>
    -- as many blocks are open as may be, so the limits decide
    intro w hw he
    rcases Nat.lt_or_ge n limit' with hlt | hge
    · have hopen : w.takeStatement limit' 0 s = .next ((w.visit 0 name).openBlock name origin) r :=
        takeStatement_block hhead hb (by simpa [Walk.depth, hw])
      exact .inr ⟨by omega, rfl, _, Walk.run_of_next ((step_statement he).trans hopen)⟩
    · obtain rfl : limit = limit' := by omega
      rw [Walk.run_of_done ((step_statement he).trans
        (takeStatement_tooDeep hhead hb (by simpa [Walk.depth, hw] using hlimit)))]
      exact .inl (fails_stop_iff.2 ⟨rfl, rfl⟩)
  | unclosed hs =>
    intro w hw he
    rw [Walk.run_of_done ((step_statement he).trans (takeStatement_finish hs))]
    exact .inl (fails_finish_iff.2 ⟨List.ne_nil_of_length_eq_add_one hw, rfl, rfl⟩)
  | unopened hs =>
    intro w hw he
    have hclose : w.closeBlock? = none :=
      closeBlock?_eq_none_iff.2 (List.eq_nil_of_length_eq_zero hw)
    rw [Walk.run_of_done ((step_of_closeBrace he hs).trans (by rw [hclose]))]
    exact .inl (fails_stop_iff.2 ⟨rfl, rfl⟩)
  | separate hs hne _ ih => exact (ih hn).separate hs hne
  | block hhead hb hlimit _ ih => exact (ih hlimit).block hhead hb (hlimit.trans_le hle)
  | close hs _ ih => exact (ih (Nat.le_of_succ_le hn)).close hs
  | ended hhead hends _ ih => exact (ih hn).ended hhead hends
  | runOn hhead hr _ ih => exact (ih hn).runOn hhead hr

/-- A pass over a whole text fails if, and only if, the text is broken for the grammar. -/
theorem fails_run_iff : Fails (Walk.run limit 0 {} s).result cause r ↔
    Statements.Broken limit 0 false s cause r := by
  constructor
  · exact broken_of_run
  · intro h
    exact (run_of_broken_le h le_rfl (Nat.zero_le _) {} rfl rfl).resolve_right
      fun hlt => lt_irrefl _ hlt.1

end Statements

/-! ### Parsing -/

/-- A parse reports an error if, and only if, the text is broken for the grammar. The report is made
of the cause and the place where the text breaks off. -/
theorem parse_eq_error_iff {source : String} {limit : Nat} {e : SyntaxError} :
    parse source limit = .error e ↔ ∃ cause r,
      Statements.Broken limit 0 false source.toList cause r ∧
        e = .ofOffset cause source.toList (byteSize source.toList - byteSize r) := by
  have hparse : parse source limit =
      (Walk.run limit 0 {} source.toList).result.mapError (·.locate source.toList) := rfl
  simp only [← fails_run_iff, hparse, Fails, mapError_eq_error_iff]
  constructor
  · rintro ⟨f, hf, rfl⟩
    exact ⟨f.cause, f.place, ⟨f.rest, hf⟩, rfl⟩
  · rintro ⟨cause, r, ⟨rest, hf⟩, rfl⟩
    exact ⟨_, hf, rfl⟩

end FieldMapping.Grammar
