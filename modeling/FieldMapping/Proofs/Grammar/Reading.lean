import FieldMapping.Proofs.Grammar.Rules
import FieldMapping.Proofs.Text.Trimming

/-!
# Readers and grammar rules

Each reader succeeds on exactly the texts that its grammar rule describes, with the result and the
remaining text that the rule gives. One thing is not in the rules: where nothing but white space is
left, the reader of a plain value returns the empty text. That is the end of a document
(`value_eq_ok_iff`, `val_of_read`); every reader of something longer fails behind it, except that
of a processor, for which the grammar has a rule.
-/

namespace FieldMapping.Grammar

open Text Scan

variable {o o' : Operator} {p : Char → Bool} {s t t' r r' : List Char}

/-! ### Tokens -/

/-- What follows the longest run of a class at the start of a text is what is left when the run is
dropped. -/
theorem skips_iff : Skips p s r ↔ s.dropWhile p = r :=
  dropWhile_eq_iff.symm

/-- An operator comes next exactly where the text without its leading blanks starts with its
character. -/
theorem sign_iff : Sign o s r ↔ significant s = o.char :: r :=
  skips_iff

/-- At most one operator comes next. -/
theorem Sign.unique (h : Sign o s t) (h' : Sign o' s t') : o = o' ∧ t = t' := by
  rw [sign_iff] at h h'
  obtain ⟨hc, rfl⟩ := List.cons.inj (h.symm.trans h')
  have ho : Operator.ofChar? o.char = Operator.ofChar? o'.char := by rw [hc]
  simpa using ho

/-- A character is read as an operator if, and only if, it is the character of that operator. -/
theorem ofChar_eq_operator_iff {c : Char} : Token.ofChar c = .operator o ↔ c = o.char := by
  rw [← Operator.ofChar?_eq_some_iff, Token.ofChar]
  split <;> simp_all

/-- An operator that comes next is the token that is taken. Only behind a comma more is taken than
its character. -/
theorem nextToken_of_sign (h : Sign o s t) :
    nextToken s = (.operator o, if o = .comma then trimStart t else t) := by
  unfold nextToken
  rw [sign_iff.1 h]
  simp only [Token.ofChar_char]
  cases o <;> rfl

/-- Where the operator that introduces it comes next, an optional part is there. -/
theorem optional_iff_of_sign {α : Type} {R : List Char → α → List Char → Prop} {a : Option α}
    (h : Sign o s t) : Optional o R s a r ↔ ∃ b, a = some b ∧ R t b r := by
  constructor
  · intro h'
    cases h' with
    | present ht hb =>
      obtain ⟨-, rfl⟩ := h.unique ht
      exact ⟨_, rfl, hb⟩
    | absent hno => exact absurd h (hno t)
  · rintro ⟨b, rfl, hb⟩
    exact .present h hb

/-- Where that operator does not come next, the part is absent, and nothing is taken for it. -/
theorem optional_iff_of_not_sign {α : Type} {R : List Char → α → List Char → Prop} {a : Option α}
    (h : ∀ t, ¬ Sign o s t) : Optional o R s a r ↔ a = none ∧ r = s := by
  constructor
  · intro h'
    cases h' with
    | present ht hb => exact absurd ht (h _)
    | absent _ => exact ⟨rfl, rfl⟩
  · rintro ⟨rfl, rfl⟩
    exact .absent h

/-- Taking a token takes the operator that comes next, and the white space behind a comma. -/
theorem nextToken_eq_operator_iff : nextToken s = (.operator o, r) ↔
    ∃ t, Sign o s t ∧ r = if o = .comma then trimStart t else t := by
  constructor
  · intro h
    have hpeek : peekToken s = .operator o := by rw [← nextToken_fst, h]
    cases hs : significant s with
    | nil => simp [peekToken, hs] at hpeek
    | cons c t =>
      rw [peekToken, hs, Token.ofHead_cons, ofChar_eq_operator_iff] at hpeek
      have hsign : Sign o s t := sign_iff.2 (by rw [hs, hpeek])
      rw [nextToken_of_sign hsign] at h
      exact ⟨t, hsign, (Prod.mk.inj h).2.symm⟩
  · rintro ⟨t, h, rfl⟩
    exact nextToken_of_sign h

/-- For every operator but the comma, the rest behind the token is the rest behind its character. -/
theorem nextToken_eq_iff (ho : o ≠ .comma) : nextToken s = (.operator o, r) ↔ Sign o s r := by
  simp [nextToken_eq_operator_iff, ho]

/-- Behind a comma, taking the token also skips the white space, line feeds included. -/
theorem nextToken_eq_comma_iff :
    nextToken s = (.operator .comma, r) ↔ ∃ t, Sign .comma s t ∧ Skips isSpace t r := by
  simp only [nextToken_eq_operator_iff, skips_iff, if_pos, eq_comm (a := r)]
  rfl

/-- Where no operator comes next, only blanks are taken. -/
theorem nextToken_of_skips (h : Skips isBlank s r) (hr : ∀ c ∈ r.head?, isOperator c = false) :
    nextToken s = (.ofHead r, r) := by
  have hs : significant s = r := skips_iff.1 h
  unfold nextToken
  rw [hs]
  cases r with
  | nil => rfl
  | cons c r =>
    have hc : Operator.ofChar? c = none := by simpa [isOperator] using hr c rfl
    simp only [Token.ofHead_cons, Token.ofChar, hc]

/-- No operator comes next where the first character behind the blanks is none. -/
theorem not_sign_of_skips (h : Skips isBlank s r) (hr : ∀ c ∈ r.head?, isOperator c = false) :
    ¬ Sign o s t := by
  intro h'
  rw [skips_iff] at h
  rw [sign_iff, significant, h] at h'
  simpa using hr o.char (by rw [h']; rfl)

/-- Either an operator comes next, or there is none behind the blanks. -/
theorem sign_or_skips (s : List Char) : (∃ o t, Sign o s t) ∨
    ∃ r, Skips isBlank s r ∧ ∀ c ∈ r.head?, isOperator c = false := by
  cases hs : significant s with
  | nil => exact .inr ⟨[], skips_iff.2 hs, by simp⟩
  | cons c t =>
    by_cases hc : isOperator c = true
    · obtain ⟨o, rfl⟩ := isOperator_eq_true_iff.1 hc
      exact .inl ⟨o, t, sign_iff.2 hs⟩
    · exact .inr ⟨c :: t, skips_iff.2 hs, by simpa using hc⟩

/-! ### Separators -/

/-- What stands in front of a text and is not only blanks is where its own significant part
starts. -/
theorem significant_append_of_eq_cons {c : Char} {u v : List Char} (h : significant u = c :: v) :
    significant (u ++ s) = c :: v ++ s := by
  rw [significant] at h ⊢
  rw [List.dropWhile_append, h]
  rfl

/-- White space is skipped between statements. -/
theorem isSeparating_of_isSpace {d : Char} (h : isSpace d = true) : Walk.isSeparating d = true := by
  simp [Walk.isSeparating, h]

/-- Behind blanks, a separator is a comma or a line feed, or there is none. -/
theorem separator_cases {u : List Char} (hu : ∀ c ∈ u, Walk.isSeparating c = true) :
    (∀ c ∈ u, isBlank c = true) ∨
      ∃ o v, (o = Operator.comma ∨ o = .newline) ∧ significant u = o.char :: v := by
  cases h : significant u with
  | nil => exact .inl (List.dropWhile_eq_nil_iff.1 h)
  | cons c v =>
    refine .inr ?_
    obtain ⟨w, rfl, -, hc⟩ := dropWhile_eq_iff.1 h
    have hsep : Walk.isSeparating c = true := hu c (by simp)
    have hblank : isBlank c = false := hc c rfl
    simp only [Walk.isSeparating, Bool.or_eq_true, beq_iff_eq] at hsep
    rcases hsep with hspace | rfl
    · obtain rfl : c = '\n' := by simpa [isBlank, hspace] using hblank
      exact ⟨.newline, v, .inr rfl, rfl⟩
    · exact ⟨.comma, v, .inl rfl, rfl⟩

/-! ### Plain values and literals -/

/-- At the end of a text no operator comes next. -/
theorem not_sign_nil : ¬ Sign o [] t := by
  simp [sign_iff, significant]

/-- An atom is not empty. -/
theorem Atom.ne_empty {a : String} (h : Atom s a r) : a ≠ "" := by
  obtain ⟨run, hs, hne, -, -, rfl⟩ := h
  rw [skips_iff] at hs
  obtain ⟨c, run, rfl⟩ := List.exists_cons_of_ne_nil hne
  intro h
  have hc : isSpace c = false := isSpace_of_trimStart_eq_cons hs
  have ht : trim (c :: run) = [] := by simpa using congrArg String.toList h
  simp [trim_eq_nil_iff, hc] at ht

/-- The reader of a plain value reads an atom, or the empty text where only white space is left. -/
theorem value_eq_ok_iff {a : String} : value s = .ok (a, r) ↔
    Atom s a r ∨ Skips isSpace s [] ∧ a = "" ∧ r = [] := by
  constructor
  · intro h
    unfold value at h
    split at h <;> rename_i hs
    · cases h
      exact .inr ⟨skips_iff.2 hs, rfl, rfl⟩
    · rename_i c t
      split at h <;> rename_i hc
      · cases h
      · -- the run goes up to the next operator
        cases h
        refine .inl ⟨(c :: t).takeWhile (!isOperator ·), ?_, ?_, ?_, ?_, rfl⟩
        · rw [skips_iff, List.takeWhile_append_dropWhile]
          exact hs
        · simp [hc]
        · intro d hd
          simpa using List.mem_takeWhile_imp hd
        · intro d hd
          obtain ⟨-, -, -, h⟩ := dropWhile_eq_iff.1 (rfl : (c :: t).dropWhile (!isOperator ·) = _)
          simpa using h d hd
  · rintro (⟨run, hs, hne, hrun, hr, rfl⟩ | ⟨hs, rfl, rfl⟩)
    · -- the run is not empty and is cut where the grammar cuts it
      obtain ⟨c, run, rfl⟩ := List.exists_cons_of_ne_nil hne
      rw [skips_iff] at hs
      have hs : trimStart s = c :: (run ++ r) := hs
      have hc : isOperator c = false := hrun c (List.mem_cons_self ..)
      unfold value
      rw [hs]
      simp only [hc, Bool.false_eq_true, if_false]
      rw [← List.cons_append, takeWhile_append_eq (by simpa using hrun) (by simpa using hr),
        dropWhile_append_eq (by simpa using hrun) (by simpa using hr)]
    · have hs : trimStart s = [] := skips_iff.1 hs
      unfold value
      rw [hs]

/-- An atom is read as a plain value. -/
theorem value_of_atom {a : String} (h : Atom s a r) : value s = .ok (a, r) :=
  value_eq_ok_iff.2 (.inl h)

/-- The reader of a literal skips blanks, and no line feed, in front of it. -/
theorem quoted_eq_ok_iff {a : String} : quoted s = .ok (a, r) ↔
    ∃ t, Skips isBlank s t ∧ Literal t a r := by
  simp only [skips_iff]
  constructor
  · intro h
    refine ⟨significant s, rfl, ?_⟩
    unfold quoted at h
    split at h <;> rename_i hs
    · cases h
    · rename_i q t
      split at h <;> rename_i hq
      · split at h <;> rename_i hd
        · cases h
        · rename_i q' t'
          cases h
          -- the body goes up to the next quote of the same kind
          obtain ⟨body, ht, hbody, hq'⟩ := dropWhile_eq_iff.1 hd
          obtain rfl : q' = q := by simpa using hq' q' rfl
          have hnot : q' ∉ body := fun hmem => by simpa using hbody q' hmem
          refine ⟨q', body, hq, hnot, by rw [hs, ht]; rfl, ?_⟩
          rw [ht, takeWhile_append_eq hbody hq']
      · cases h
  · -- the body has no quote of this kind, so it is what the reader takes up to the next one
    rintro ⟨t, hs, q, body, hq, hbody, rfl, rfl⟩
    have hb : ∀ c ∈ body, (c != q) = true := by
      intro c hc
      simpa using fun h : c = q => hbody (h ▸ hc)
    have hs : significant s = q :: (body ++ q :: r) := hs
    unfold quoted
    rw [hs]
    simp only [hq, if_true]
    rw [dropWhile_append_eq (r := q :: r) hb (by simp),
      takeWhile_append_eq (r := q :: r) hb (by simp)]

/-- The test for a quote looks behind the blanks. -/
theorem startsQuoted_iff : startsQuoted s = true ↔ QuoteNext s := by
  simp only [QuoteNext, skips_iff, startsQuoted]
  change _ ↔ ∃ q r, isQuote q = true ∧ significant s = q :: r
  cases significant s with
  | nil => simp
  | cons c t => simp

/-! ### Values -/

/-- Every value of the grammar is read as itself. Which of its forms is meant shows in the text: at
a quote, or in a bracket behind a plain value. -/
theorem read_of_val {v : Value} (h : Val s v r) : Value.read s = .ok (v, r) := by
  unfold Value.read
  cases h with
  | literal ht ha =>
    -- a literal starts with the quote that is looked for
    have hn : QuoteNext s := by
      obtain ⟨q, body, hq, -, hs, -⟩ := ha
      exact ⟨q, _, hq, hs ▸ ht⟩
    rw [if_pos (startsQuoted_iff.2 hn), Fault.bind_eq_ok_iff]
    exact ⟨_, _, quoted_eq_ok_iff.2 ⟨_, ht, ha⟩, rfl⟩
  | plain hn ha hr =>
    rw [if_neg (startsQuoted_iff.not.2 hn), Fault.bind_eq_ok_iff]
    refine ⟨_, _, value_of_atom ha, ?_⟩
    dsimp only
    split <;> rename_i h
    · exact absurd ((nextToken_eq_iff (by decide)).1 h) (hr _)
    · rfl
  | indexed hn hb ho hi hc =>
    rw [if_neg (startsQuoted_iff.not.2 hn), Fault.bind_eq_ok_iff]
    refine ⟨_, _, value_of_atom hb, ?_⟩
    simp only [(nextToken_eq_iff (by decide)).2 ho]
    rw [Fault.bind_eq_ok_iff]
    refine ⟨_, _, value_of_atom hi, ?_⟩
    simp only [(nextToken_eq_iff (by decide)).2 hc]

/-- Only at the end of a text does the reader of a value find nothing. -/
theorem val_of_read {v : Value} (h : Value.read s = .ok (v, r)) :
    Val s v r ∨ Skips isSpace s [] ∧ v = .scalar "" ∧ r = [] := by
  unfold Value.read at h
  split at h <;> rename_i hq
  · obtain ⟨a, t, h, ⟨⟩⟩ := Fault.bind_eq_ok_iff.1 h
    obtain ⟨u, hu, ha⟩ := quoted_eq_ok_iff.1 h
    exact .inl (.literal hu ha)
  · rw [startsQuoted_iff] at hq
    -- a plain value, and then its index if a bracket comes next
    obtain ⟨base, t, h₁, h⟩ := Fault.bind_eq_ok_iff.1 h
    rcases value_eq_ok_iff.1 h₁ with hbase | ⟨hs, rfl, rfl⟩
    · dsimp only at h
      split at h
      · rename_i u hu
        obtain ⟨index, x, h₂, h⟩ := Fault.bind_eq_ok_iff.1 h
        dsimp only at h
        split at h
        · rename_i r' hr'
          cases h
          rw [nextToken_eq_iff (by decide)] at hu hr'
          rcases value_eq_ok_iff.1 h₂ with hindex | ⟨-, -, rfl⟩
          · exact .inl (.indexed hq hbase hu hindex hr')
          · -- an index is missing only at the end of the text, where no bracket closes it
            exact absurd hr' not_sign_nil
        · cases h
      · rename_i hno
        cases h
        exact .inl (.plain hq hbase fun t ht => hno t ((nextToken_eq_iff (by decide)).2 ht))
    · cases h
      exact .inr ⟨hs, rfl, rfl⟩

/-! ### Parameters -/

/-- Another item follows behind a comma and the white space there. -/
theorem itemEnd_eq_ok_true_iff :
    itemEnd s = .ok (true, r) ↔ ∃ t, Sign .comma s t ∧ Skips isSpace t r := by
  rw [← nextToken_eq_comma_iff]
  unfold itemEnd
  split <;> simp_all

/-- A list ends with the parenthesis that closes it. -/
theorem itemEnd_eq_ok_false_iff : itemEnd s = .ok (false, r) ↔ Sign .closeParen s r := by
  rw [← nextToken_eq_iff (by decide)]
  unfold itemEnd
  split <;> simp_all

/-- A key in front of the closing parenthesis is a parameter without a value, and the last one. -/
theorem readItem_of_key {k : String} (hk : Atom s k t) (h : Sign .closeParen t r) :
    Param.readItem s = .ok ((⟨k, none⟩, false), r) := by
  rw [Param.readItem, Fault.bind_eq_ok_iff]
  refine ⟨_, _, value_of_atom hk, ?_⟩
  simp only [(nextToken_eq_iff (by decide)).2 h]

/-- A key with a value is a parameter, and what follows the value tells whether another one
comes. -/
theorem readItem_of_val {k : String} {v : Value} {u x : List Char} {more : Bool}
    (hk : Atom s k t) (hc : Sign .colon t u) (hv : Val u v x) (h : itemEnd x = .ok (more, r)) :
    Param.readItem s = .ok ((⟨k, some v⟩, more), r) := by
  rw [Param.readItem, Fault.bind_eq_ok_iff]
  refine ⟨_, _, value_of_atom hk, ?_⟩
  simp only [(nextToken_eq_iff (by decide)).2 hc]
  rw [Fault.bind_eq_ok_iff]
  refine ⟨_, _, read_of_val hv, ?_⟩
  rw [Fault.bind_eq_ok_iff]
  exact ⟨_, _, h, rfl⟩

/-- What is read as one parameter is a key, with or without a value behind a colon. -/
theorem of_readItem {p : Param} {more : Bool} (h : Param.readItem s = .ok ((p, more), r)) :
    (∃ k t, Atom s k t ∧ Sign .closeParen t r ∧ p = ⟨k, none⟩ ∧ more = false) ∨
    ∃ k v t u x, Atom s k t ∧ Sign .colon t u ∧ Val u v x ∧ itemEnd x = .ok (more, r) ∧
      p = ⟨k, some v⟩ := by
  rw [Param.readItem] at h
  obtain ⟨k, t, hk, h⟩ := Fault.bind_eq_ok_iff.1 h
  rcases value_eq_ok_iff.1 hk with hk | ⟨-, rfl, rfl⟩
  · -- what follows the key decides between its two forms
    dsimp only at h
    split at h
    · rename_i u hu
      cases h
      exact .inl ⟨k, t, hk, (nextToken_eq_iff (by decide)).1 hu, rfl, rfl⟩
    · rename_i u hu
      obtain ⟨v, x, hv, h⟩ := Fault.bind_eq_ok_iff.1 h
      obtain ⟨more', y, hend, h⟩ := Fault.bind_eq_ok_iff.1 h
      cases h
      rcases val_of_read hv with hv | ⟨-, rfl, rfl⟩
      · exact .inr ⟨k, v, t, u, x, hk, (nextToken_eq_iff (by decide)).1 hu, hv, hend, rfl⟩
      · -- a value that is missing is missing at the end of the text
        cases hend
    · cases h
  · -- a key is missing only at the end of the text, where nothing can follow it
    cases h

/-- A list that is read item by item is in every relation that its items build. -/
theorem of_readAll {α : Type} {item : ItemReader α} {R : List Char → List α → List Char → Prop}
    (last : ∀ {s a r}, item.read s = .ok ((a, false), r) → R s [a] r)
    (more : ∀ {s a t as r}, item.read s = .ok ((a, true), t) → R t as r → R s (a :: as) r)
    {as : List α} (h : item.readAll s = .ok (as, r)) : R s as r := by
  -- on the items: the last one, or one with more behind it
  fun_induction item.readAll s generalizing as r with
  | case1 s f hf => cases h
  | case2 s a t ht =>
    cases h
    exact last ht
  | case3 s a t ht ih =>
    obtain ⟨as', u, h', h⟩ := Fault.bind_eq_ok_iff.1 h
    cases h
    exact more ht (ih h')

/-- An item in front of a list of items that is read makes a longer list that is read. -/
theorem readAll_cons {α : Type} {item : ItemReader α} {a : α} {as : List α}
    (h : item.read s = .ok ((a, true), t)) (h' : item.readAll t = .ok (as, r)) :
    item.readAll s = .ok (a :: as, r) := by
  rw [ItemReader.readAll_of_more h, Fault.bind_eq_ok_iff]
  exact ⟨_, _, h', rfl⟩

/-- Parameters are read item by item exactly where the grammar lists them. -/
theorem readAll_params_iff {ps : List Param} :
    Param.item.readAll s = .ok (ps, r) ↔ Params s ps r := by
  constructor
  · refine of_readAll (fun {s p r} h => ?_) (fun {s p t ps r} h hps => ?_)
    · rcases of_readItem h with ⟨k, t, hk, hr, rfl, -⟩ | ⟨k, v, t, u, x, hk, hc, hv, hend, rfl⟩
      · exact .key hk hr
      · exact .last hk hc hv (itemEnd_eq_ok_false_iff.1 hend)
    · -- a parameter without a value is never followed by another one
      rcases of_readItem h with ⟨_, _, _, _, _, ⟨⟩⟩ | ⟨k, v, t, u, x, hk, hc, hv, hend, rfl⟩
      obtain ⟨y, hy, hz⟩ := itemEnd_eq_ok_true_iff.1 hend
      exact .more hk hc hv hy hz hps
  · intro h
    induction h with
    | key hk hr => exact ItemReader.readAll_of_last (readItem_of_key hk hr)
    | last hk hc hv hr =>
      exact ItemReader.readAll_of_last (readItem_of_val hk hc hv (itemEnd_eq_ok_false_iff.2 hr))
    | more hk hc hv hy hz _ ih =>
      exact readAll_cons (readItem_of_val hk hc hv (itemEnd_eq_ok_true_iff.2 ⟨_, hy, hz⟩)) ih

/-! ### Arguments and processors -/

/-- A value in front of the end of an item is an argument. -/
theorem readArg_of_val {v : Value} {more : Bool} (hv : Val s v t) (h : itemEnd t = .ok (more, r)) :
    Processor.readArg s = .ok ((v, more), r) := by
  rw [Processor.readArg, Fault.bind_eq_ok_iff]
  refine ⟨_, _, read_of_val hv, ?_⟩
  rw [Fault.bind_eq_ok_iff]
  exact ⟨_, _, h, rfl⟩

/-- What is read as one argument is a value and the end of an item behind it. -/
theorem of_readArg {v : Value} {more : Bool} (h : Processor.readArg s = .ok ((v, more), r)) :
    ∃ t, Val s v t ∧ itemEnd t = .ok (more, r) := by
  rw [Processor.readArg] at h
  obtain ⟨v', t, hv, h⟩ := Fault.bind_eq_ok_iff.1 h
  obtain ⟨more', u, hend, h⟩ := Fault.bind_eq_ok_iff.1 h
  cases h
  rcases val_of_read hv with hv | ⟨-, rfl, rfl⟩
  · exact ⟨t, hv, hend⟩
  · -- behind a missing value there is no end of an item
    cases hend

/-- Arguments are read item by item exactly where the grammar lists them. -/
theorem readAll_args_iff {vs : List Value} :
    Processor.arg.readAll s = .ok (vs, r) ↔ Args s vs r := by
  constructor
  · refine of_readAll (fun {s v r} h => ?_) (fun {s v t vs r} h hvs => ?_)
    · obtain ⟨t, hv, hend⟩ := of_readArg h
      exact .last hv (itemEnd_eq_ok_false_iff.1 hend)
    · obtain ⟨t, hv, hend⟩ := of_readArg h
      obtain ⟨u, hu, hx⟩ := itemEnd_eq_ok_true_iff.1 hend
      exact .more hv hu hx hvs
  · intro h
    induction h with
    | last hv hr =>
      exact ItemReader.readAll_of_last (readArg_of_val hv (itemEnd_eq_ok_false_iff.2 hr))
    | more hv hu hx _ ih =>
      exact readAll_cons (readArg_of_val hv (itemEnd_eq_ok_true_iff.2 ⟨_, hu, hx⟩)) ih

/-- Arguments that are left out, parentheses and all, are no arguments. Inside parentheses there is
at least one. -/
theorem readArgs_eq_ok_iff {args : List Value} : Processor.readArgs s = .ok (args, r) ↔
    ∃ given, Optional .openParen Args s given r ∧ args = given.getD [] := by
  unfold Processor.readArgs
  split <;> rename_i h
  · rw [nextToken_eq_iff (by decide)] at h
    simp only [optional_iff_of_sign h, readAll_args_iff]
    constructor
    · intro h'
      exact ⟨some args, ⟨args, rfl, h'⟩, rfl⟩
    · rintro ⟨given, ⟨args', rfl, h'⟩, rfl⟩
      exact h'
  · have hno : ∀ t, ¬ Sign .openParen s t := fun t ht => h t ((nextToken_eq_iff (by decide)).2 ht)
    -- there is no parenthesis, so both sides say that nothing is taken
    simp only [optional_iff_of_not_sign hno]
    constructor
    · rintro ⟨⟩
      exact ⟨none, ⟨rfl, rfl⟩, rfl⟩
    · rintro ⟨given, ⟨rfl, rfl⟩, rfl⟩
      rfl

/-- A processor of the grammar is a name and arguments as their readers give them. This is an
equivalence also at the end of the text, since the grammar has nameless processors there. -/
theorem stage_iff {p : Processor} : Stage s p r ↔ ∃ name args t,
    value s = .ok (name, t) ∧ Processor.readArgs t = .ok (args, r) ∧ p = ⟨name, args⟩ := by
  constructor
  · intro h
    cases h with
    | named ha hargs => exact ⟨_, _, _, value_of_atom ha, readArgs_eq_ok_iff.2 ⟨_, hargs, rfl⟩, rfl⟩
    | nameless hs => exact ⟨"", [], [], value_eq_ok_iff.2 (.inr ⟨hs, rfl, rfl⟩), rfl, rfl⟩
  · rintro ⟨name, args, t, hname, hargs, rfl⟩
    rcases value_eq_ok_iff.1 hname with ha | ⟨hs, rfl, rfl⟩
    · obtain ⟨given, hgiven, rfl⟩ := readArgs_eq_ok_iff.1 hargs
      exact .named ha hgiven
    · -- behind a missing name nothing is left, so there are no arguments
      cases hargs
      exact .nameless hs

/-- What is read as one processor is a processor, and a bar behind it announces another one. -/
theorem readItem_eq_ok_iff {p : Processor} {more : Bool} :
    Processor.readItem s = .ok ((p, more), r) ↔ ∃ t, Stage s p t ∧
      if more then Sign .bar t r else r = t ∧ ∀ u, ¬ Sign .bar t u := by
  simp only [Processor.readItem, Fault.bind_eq_ok_iff, stage_iff]
  constructor
  · rintro ⟨name, t, hname, args, u, hargs, h⟩
    refine ⟨u, ⟨name, args, t, hname, hargs, ?_⟩, ?_⟩
    all_goals
      split at h <;> rename_i hbar <;> cases h
    · rfl
    · rfl
    · exact (nextToken_eq_iff (by decide)).1 hbar
    · exact ⟨rfl, fun u hu => hbar u ((nextToken_eq_iff (by decide)).2 hu)⟩
  · -- the bar is there or not, and `more` has to say the same
    rintro ⟨u, ⟨name, args, t, hname, hargs, rfl⟩, h⟩
    refine ⟨name, t, hname, args, u, hargs, ?_⟩
    split <;> rename_i hbar
    · rw [nextToken_eq_iff (by decide)] at hbar
      cases more with
      | true => rw [(hbar.unique h).2]
      | false => exact absurd hbar (h.2 _)
    · cases more with
      | true => exact absurd ((nextToken_eq_iff (by decide)).2 h) (hbar r)
      | false => rw [h.1]

/-- Processors are read bar by bar exactly where the grammar chains them. -/
theorem readAll_stages_iff {ps : List Processor} :
    Processor.item.readAll s = .ok (ps, r) ↔ Stages s ps r := by
  constructor
  · refine of_readAll (fun {s p r} h => ?_) (fun {s p t ps r} h hps => ?_)
    · obtain ⟨t, hp, rfl, hno⟩ := readItem_eq_ok_iff.1 h
      exact .last hp hno
    · obtain ⟨t, hp, hbar⟩ := readItem_eq_ok_iff.1 h
      exact .more hp hbar hps
  · intro h
    induction h with
    | last hp hno => exact ItemReader.readAll_of_last (readItem_eq_ok_iff.2 ⟨_, hp, rfl, hno⟩)
    | more hp hbar _ ih => exact readAll_cons (readItem_eq_ok_iff.2 ⟨_, hp, hbar⟩) ih

/-- A pipeline is read where a bar comes next, and nowhere else. -/
theorem readPipeline_eq_ok_iff {ps : Option (List Processor)} :
    Processor.readPipeline s = .ok (ps, r) ↔ Optional .bar Stages s ps r := by
  unfold Processor.readPipeline
  split <;> rename_i h
  · rw [nextToken_eq_iff (by decide)] at h
    simp only [optional_iff_of_sign h, Fault.bind_eq_ok_iff, readAll_stages_iff]
    constructor
    · rintro ⟨ps', t, h', ⟨⟩⟩
      exact ⟨ps', rfl, h'⟩
    · rintro ⟨ps', rfl, h'⟩
      exact ⟨ps', r, h', rfl⟩
  · have hno : ∀ t, ¬ Sign .bar s t := fun t ht => h t ((nextToken_eq_iff (by decide)).2 ht)
    simp only [optional_iff_of_not_sign hno]
    constructor
    · rintro ⟨⟩
      exact ⟨rfl, rfl⟩
    · rintro ⟨rfl, rfl⟩
      rfl

/-! ### Origins -/

/-- The rule on what may follow a bare type name asks for one of five tokens. -/
theorem endsType_iff : EndsType s ↔ (nextToken s).1.endsTypeRef = true := by
  rcases sign_or_skips s with ⟨o, t, h⟩ | ⟨r, h, hr⟩
  · have hiff : EndsType s ↔ o ∈ [Operator.openBrace, .closeBrace, .comma, .newline] := by
      constructor
      · rintro (⟨o', t', ho, h'⟩ | h')
        · rwa [(h.unique h').1]
        · exact absurd h (not_sign_of_skips h' (by simp))
      · intro ho
        exact .inl ⟨o, t, ho, h⟩
    rw [hiff, nextToken_of_sign h]
    change _ ↔ (Token.operator o).endsTypeRef = true
    cases o <;> decide
  · -- no operator comes next, so only the end of the text is left
    have hiff : EndsType s ↔ r = [] := by
      constructor
      · rintro (⟨o', t', -, h'⟩ | h')
        · exact absurd h' (not_sign_of_skips h hr)
        · exact (skips_iff.1 h).symm.trans (skips_iff.1 h')
      · rintro rfl
        exact .inr h
    rw [hiff, nextToken_of_skips h hr]
    cases r with
    | nil => exact iff_of_true rfl rfl
    | cons c r =>
      have hc : Operator.ofChar? c = none := by simpa [isOperator] using hr c rfl
      simp [Token.ofChar, hc, Token.endsTypeRef]

/-- Behind a type name come parameters and a pipeline, each if its operator is there. What stands
behind a name with neither of them is checked, and nowhere else. -/
theorem readAfter_eq_ok_iff {name : String} {ref : TypeRef} :
    TypeRef.readAfter name s = .ok (ref, r) ↔ ∃ params processors t,
      Optional .openParen Params s params t ∧ Optional .bar Stages t processors r ∧
        (params = none → processors = none → EndsType s) ∧ ref = ⟨name, params, processors⟩ := by
  unfold TypeRef.readAfter
  split <;> rename_i h
  · -- a parenthesis comes next: parameters, and then a pipeline if there is one
    rw [nextToken_eq_iff (by decide)] at h
    simp only [optional_iff_of_sign h, Fault.bind_eq_ok_iff, readAll_params_iff,
      readPipeline_eq_ok_iff]
    constructor
    · rintro ⟨params, t, hps, processors, t', hpipe, ⟨⟩⟩
      exact ⟨some params, processors, t, ⟨params, rfl, hps⟩, hpipe, nofun, rfl⟩
    · rintro ⟨_, processors, t, ⟨params, rfl, hps⟩, hpipe, -, rfl⟩
      exact ⟨params, t, hps, processors, r, hpipe, rfl⟩
  · -- a bar comes next: a pipeline without parameters
    rw [nextToken_eq_iff (by decide)] at h
    have hno : ∀ t, ¬ Sign .openParen s t := fun t ht => nomatch (h.unique ht).1
    simp only [optional_iff_of_not_sign hno, Fault.bind_eq_ok_iff, readPipeline_eq_ok_iff,
      optional_iff_of_sign h]
    constructor
    · rintro ⟨processors, t, ⟨ps, rfl, hps⟩, ⟨⟩⟩
      exact ⟨none, some ps, s, ⟨rfl, rfl⟩, (optional_iff_of_sign h).2 ⟨ps, rfl, hps⟩, nofun, rfl⟩
    · rintro ⟨_, processors, t, ⟨rfl, rfl⟩, hpipe, -, rfl⟩
      obtain ⟨ps, rfl, hps⟩ := (optional_iff_of_sign h).1 hpipe
      exact ⟨some ps, r, ⟨ps, rfl, hps⟩, rfl⟩
  · -- neither comes next: a bare name, whose end is checked
    rename_i token t hparen hbar
    -- any operator that came next would have been the token
    have hno : ∀ o, token ≠ .operator o → ∀ u, ¬ Sign o s u := by
      intro o ho u hu
      rw [nextToken_of_sign hu] at h
      exact ho (Prod.mk.inj h).1.symm
    have hends : EndsType s ↔ token.endsTypeRef = true := by rw [endsType_iff, h]
    simp only [optional_iff_of_not_sign (hno .openParen hparen)]
    constructor
    · intro h'
      split at h' <;> rename_i hok
      · cases h'
        exact ⟨none, none, s, ⟨rfl, rfl⟩, .absent (hno .bar hbar), fun _ _ => hends.2 hok, rfl⟩
      · cases h'
    · rintro ⟨_, processors, t, ⟨rfl, rfl⟩, hpipe, hok, rfl⟩
      obtain ⟨rfl, rfl⟩ := (optional_iff_of_not_sign (hno .bar hbar)).1 hpipe
      rw [if_pos (hends.1 (hok rfl rfl))]

/-- An atom starts with the first character of the text that is no white space. This is the
character that decides between a field and a type. -/
theorem Atom.head?_eq {a : String} (h : Atom s a r) :
    ∃ c, a.toList.head? = some c ∧ (trimStart s).head? = some c := by
  obtain ⟨run, hs, hne, -, -, rfl⟩ := h
  rw [skips_iff] at hs
  obtain ⟨c, run, rfl⟩ := List.exists_cons_of_ne_nil hne
  have hs : trimStart s = c :: (run ++ r) := hs
  refine ⟨c, ?_, by rw [hs]; rfl⟩
  rw [String.toList_ofList, head?_trim]
  · rfl
  · simpa using isSpace_of_trimStart_eq_cons hs

/-- An origin is read as a field or as a type by the first character of its name. -/
theorem origin_read_eq_ok_iff {origin : Origin} :
    Origin.read s = .ok (origin, r) ↔ Source s origin r := by
  simp only [Origin.read, Fault.bind_eq_ok_iff]
  constructor
  · rintro ⟨name, t, hname, h⟩
    rcases value_eq_ok_iff.1 hname with ha | ⟨-, rfl, rfl⟩
    · -- the first character decides between a field and a type
      obtain ⟨c, hc, -⟩ := ha.head?_eq
      simp only [hc] at h
      split at h <;> rename_i hfield
      · cases h
        refine .field ha (fun d hd => ?_)
        obtain rfl : c = d := by simpa [hc] using hd
        simpa [startsField] using hfield
      · obtain ⟨ref, u, h₂, h⟩ := Fault.bind_eq_ok_iff.1 h
        cases h
        obtain ⟨params, processors, x, hps, hpipe, hends, rfl⟩ := readAfter_eq_ok_iff.1 h₂
        refine .type ha (fun d hd => ?_) hps hpipe hends
        obtain rfl : c = d := by simpa [hc] using hd
        simpa [startsField] using hfield
    · -- a name is missing only at the end of the text, where an origin is refused
      cases h
  · intro h
    cases h with
    | field ha hfield =>
      obtain ⟨c, hc, -⟩ := ha.head?_eq
      refine ⟨_, r, value_of_atom ha, ?_⟩
      have : startsField c = true := by simpa [startsField] using hfield c hc
      simp only [hc, this, if_true]
    | type ha hfield hps hpipe hends =>
      obtain ⟨c, hc, -⟩ := ha.head?_eq
      refine ⟨_, _, value_of_atom ha, ?_⟩
      have : startsField c = false := by simpa [startsField] using hfield c hc
      simp only [hc, this, Bool.false_eq_true, if_false, Fault.bind_eq_ok_iff]
      exact ⟨_, r, readAfter_eq_ok_iff.2 ⟨_, _, _, hps, hpipe, hends, rfl⟩, rfl⟩

/-- An origin is read where a colon comes next, and nowhere else. -/
theorem readOptional_eq_ok_iff {origin : Option Origin} :
    Origin.readOptional s = .ok (origin, r) ↔ Optional .colon Source s origin r := by
  unfold Origin.readOptional
  split <;> rename_i h
  · rw [nextToken_eq_iff (by decide)] at h
    simp only [optional_iff_of_sign h, Fault.bind_eq_ok_iff, origin_read_eq_ok_iff]
    constructor
    · rintro ⟨origin', t, h', ⟨⟩⟩
      exact ⟨origin', rfl, h'⟩
    · rintro ⟨origin', rfl, h'⟩
      exact ⟨origin', r, h', rfl⟩
  · have hno : ∀ t, ¬ Sign .colon s t := fun t ht => h t ((nextToken_eq_iff (by decide)).2 ht)
    simp only [optional_iff_of_not_sign hno]
    constructor
    · rintro ⟨⟩
      exact ⟨rfl, rfl⟩
    · rintro ⟨rfl, rfl⟩
      rfl

end FieldMapping.Grammar
