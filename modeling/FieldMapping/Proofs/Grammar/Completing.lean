import FieldMapping.Proofs.Grammar.Failing
import FieldMapping.Proofs.Grammar.Forking

/-!
# Broken rules that can be completed

A broken rule is a derivation that stops half way, and the derivation can be finished: where an atom
is missing, an `x` stands in for it, an open literal gets its quote, and brackets and parentheses
are closed from the inside out. A rule that is broken at `r` is completed by a text in place of `r`
(`Completable`), in front of a parenthesis for a value and in front of a comma for everything else.

What is read in front of the completion reads the same as before, since a completion starts as the
text does that it replaces, or with the `x` (`Resumes`).
-/

namespace FieldMapping.Grammar

open Text

variable {s s' t t' u x y r z : List Char} {cause : Cause} {o o' : Operator}

/-! ### What stands behind a completion -/

/-- An operator in front of a text is the next token, with nothing to skip in front of it. -/
theorem sign_cons (o : Operator) (z : List Char) : Sign o (o.char :: z) z :=
  ⟨[], rfl, by simp, by simpa using isBlank_of_isOperator (isOperator_char o)⟩

/-- Where an operator comes first, no other one comes next. -/
theorem not_sign_cons (h : o' ≠ o) (z : List Char) : ∀ t, ¬ Sign o' (o.char :: z) t :=
  fun _ ht => h (ht.unique (sign_cons o z)).1

theorem stops_cons (o : Operator) (z : List Char) : Stops (o.char :: z) := by
  simp [Stops]

/-- There are no blanks to skip behind an atom. -/
theorem Stops.eq_of_skips (h : Stops s) (hs : Skips isBlank s r) : s = r := by
  obtain ⟨w, rfl, hw, -⟩ := hs
  cases w with
  | nil => rfl
  | cons c w => simp [isBlank_of_isOperator (h c rfl)] at hw

/-- Nothing goes on in front of an operator that continues nothing. -/
theorem Sign.follows (h : Sign o s' t) (ho : o ∉ continuing) (hstops : Stops s → Stops s') :
    Follows s s' :=
  ⟨hstops, fun _ ho' _ ht => absurd ((h.unique ht).1 ▸ ho') ho⟩

theorem not_sign_comma (h : o ≠ .comma) (z : List Char) : ∀ t, ¬ Sign o (',' :: z) t :=
  not_sign_cons h z

/-- A comma gives no reason to go on to anything that stops in front of another text. -/
theorem follows_comma (s z : List Char) : Follows s (',' :: z) :=
  (sign_cons .comma z).follows (by decide) fun _ => stops_cons .comma z

theorem endsStatement_comma (z : List Char) : EndsStatement (',' :: z) :=
  ⟨.comma, z, by simp, sign_cons .comma z⟩

/-- The end of the text is not the end of a statement: a sign has to be there. -/
theorem EndsStatement.ne_nil (h : EndsStatement s) : s ≠ [] := by
  rintro rfl
  obtain ⟨o, t, -, ht⟩ := h
  exact not_sign_nil ht

/-- What ends a statement ends a bare type name as well. -/
theorem EndsStatement.endsType (h : EndsStatement s) : EndsType s := by
  obtain ⟨o, t, ho, ht⟩ := h
  exact .inl ⟨o, t, List.mem_cons_of_mem _ ho, ht⟩

/-! ### Texts that go on in another way -/

/-- The texts fork into `x` and `y`, and the second starts as the first does, or with the `x` that
stands in for an atom. -/
structure Resumes (x y s s' : List Char) : Prop where
  forks : Forks x y s s'
  head?_eq : s'.head? = s.head? ∨ s'.head? = some 'x'

/-- Where the fork is behind what comes next, both texts start with the same character. -/
theorem ForksLate.resumes (h : ForksLate x y s s') : Resumes x y s s' :=
  ⟨h.forks, .inl h.head?_eq⟩

/-- The second text starts with no character of a class if the first does not. -/
theorem Resumes.head {p : Char → Bool} (h : Resumes x y s s') (hs : ∀ c ∈ s.head?, p c = false)
    (hx : p 'x' = false) : ∀ c ∈ s'.head?, p c = false := by
  rcases h.head?_eq with heq | heq <;> rw [heq]
  · exact hs
  · simpa using hx

/-- An operator that continues nothing can be put where one is missing. -/
theorem Skips.sign (h : Skips isBlank s r) (ho : o ∉ continuing) (z : List Char) :
    ∃ s', Forks r (o.char :: z) s s' ∧ Follows s s' ∧ Sign o s' z := by
  obtain ⟨w, rfl, hw, -⟩ := h
  have hsign : Sign o (w ++ o.char :: z) z :=
    ⟨w, rfl, hw, by simpa using isBlank_of_isOperator (isOperator_char o)⟩
  -- nothing in front of the operator makes an atom go on: there are only blanks
  refine ⟨w ++ o.char :: z, (Forks.refl r _).append w, hsign.follows ho fun hstops => ?_, hsign⟩
  cases w with
  | nil => exact stops_cons o z
  | cons c w => exact hstops

/-- An atom can be put where one is missing. -/
theorem Skips.atom (h : Skips isSpace s r) (o : Operator) (z : List Char) :
    ∃ s', Resumes r ('x' :: o.char :: z) s s' ∧ ¬ QuoteNext s' ∧ Atom s' "x" (o.char :: z) := by
  obtain ⟨w, rfl, hw, -⟩ := h
  have hskip : Skips isSpace (w ++ 'x' :: o.char :: z) ('x' :: o.char :: z) :=
    ⟨w, rfl, hw, by simp; rfl⟩
  refine ⟨w ++ 'x' :: o.char :: z, ⟨(Forks.refl r _).append w, ?_⟩,
    not_quoteNext_of_skips hskip (by simp; rfl), ['x'], hskip, by simp, by simp; rfl,
    stops_cons o z, rfl⟩
  cases w with
  | nil => exact .inr rfl
  | cons c w => exact .inl rfl

/-! ### Completions of broken rules -/

section Completable

variable {α β : Type} {R : List Char → α → List Char → Prop} {R' : List Char → β → List Char → Prop}

/-- Some text in place of `r` completes what the rule `R` has read from `s`, in front of whatever
the operator `o` starts. -/
def Completable (R : List Char → α → List Char → Prop) (o : Operator) (s r : List Char) : Prop :=
  ∃ v, ∀ z, ∃ s' a, Resumes r (v ++ o.char :: z) s s' ∧ R s' a (o.char :: z)

/-- A rule is completed as the rule at its end is. -/
theorem Completable.behind (h : Completable R o t r)
    (hR : ∀ {y z t' a}, Resumes r y t t' → R t' a (o.char :: z) →
      ∃ s' b, Resumes r y s s' ∧ R' s' b (o.char :: z)) : Completable R' o s r := by
  obtain ⟨v, hv⟩ := h
  refine ⟨v, fun z => ?_⟩
  obtain ⟨t', a, ht, ha⟩ := hv z
  exact hR ht ha

/-- A rule that ends with a parenthesis is completed as the rule in front of the parenthesis is. -/
theorem Completable.close (h : Completable R .closeParen t r)
    (hR : ∀ {y z t' a}, Resumes r y t t' → R t' a (')' :: z) →
      ∃ s' b, Resumes r y s s' ∧ R' s' b z) : Completable R' o s r := by
  obtain ⟨v, hv⟩ := h
  refine ⟨v ++ [')'], fun z => ?_⟩
  obtain ⟨t', a, ht, ha⟩ := hv (o.char :: z)
  rw [List.append_assoc]
  exact hR ht ha

end Completable

/-- A broken value is completed by a quote, an `x`, or a bracket, each where it breaks off. -/
theorem Val.Broken.completable (h : Val.Broken s cause r) : Completable Val .closeParen s r := by
  cases h with
  | @quote body q hs hq hbody =>
    -- the quote comes at the end of the text, where the literal is open
    obtain ⟨w, rfl, hw, hhead⟩ := hs
    have hblank : isBlank q = false := isBlank_of_isSpace (isSpace_of_isQuote hq)
    refine ⟨[q], fun z => ⟨w ++ q :: (body ++ q :: ')' :: z), _, ?_,
      .literal ⟨w, rfl, hw, by simpa using hhead⟩ ⟨q, body, hq, hbody, by simp; rfl, rfl⟩⟩⟩
    have hfork := ((Forks.refl [] (q :: ')' :: z)).append body).late w hblank
    simpa [Operator.char] using hfork.resumes
  | base hq h =>
    refine ⟨['x'], fun z => ?_⟩
    -- the `x` is the base, and no bracket follows it
    obtain ⟨s', hs, hno, ha⟩ := h.1.atom .closeParen z
    exact ⟨s', _, hs, .plain hno ha (not_sign_cons (by decide) z)⟩
  | index hq hbase ho h =>
    -- the `x` is the index; the base and its bracket stand in front of the fork
    refine ⟨['x', ']'], fun z => ?_⟩
    obtain ⟨u', hu, -, hindex⟩ := h.1.atom .closeBracket (')' :: z)
    obtain ⟨s', t', hs, hbase', ho'⟩ := hbase.fork_sign ho hu.forks
    exact ⟨s', _, hs.resumes, .indexed (hs.quoteNext_iff.not.2 hq) hbase' ho' hindex
      (sign_cons .closeBracket _)⟩
  | bracket hq hbase ho hindex h =>
    refine ⟨[']'], fun z => ?_⟩
    obtain ⟨x', hx, hfol, hc⟩ := h.2.1.sign (o := .closeBracket) (by decide) (')' :: z)
    obtain ⟨u', hu, hindex'⟩ := hindex.fork hx (hfol.stops hindex.stops)
    obtain ⟨s', t', hs, hbase', ho'⟩ := hbase.fork_sign ho hu.forks
    exact ⟨s', _, hs.resumes, .indexed (hs.quoteNext_iff.not.2 hq) hbase' ho' hindex' hc⟩

/-- Broken parameters are completed up to the parenthesis that closes them. -/
theorem Params.Broken.completable (h : Params.Broken s cause r) : Completable Params o s r := by
  -- each rule puts what is missing at the fork and reads the parts in front of it once more
  induction h with
  | key h =>
    refine ⟨['x', ')'], fun z => ?_⟩
    obtain ⟨s', hs, -, hk⟩ := h.1.atom .closeParen (o.char :: z)
    exact ⟨s', _, hs, .key hk (sign_cons .closeParen _)⟩
  | sign hk h =>
    refine ⟨[')'], fun z => ?_⟩
    obtain ⟨t', ht, hfol, hr⟩ := h.2.1.sign (o := .closeParen) (by decide) (o.char :: z)
    obtain ⟨s', hs, hk'⟩ := hk.fork ht (hfol.stops hk.stops)
    exact ⟨s', _, hs.resumes, .key hk' hr⟩
  | value hk hc h =>
    refine h.completable.close fun hu hv => ?_
    obtain ⟨s', t', hs, hk', hc'⟩ := hk.fork_sign hc hu.forks
    exact ⟨s', _, hs.resumes, .last hk' hc' hv (sign_cons .closeParen _)⟩
  | behind hk hc hv h =>
    refine ⟨[')'], fun z => ?_⟩
    obtain ⟨x', hx, hfol, hr⟩ := h.2.1.sign (o := .closeParen) (by decide) (o.char :: z)
    obtain ⟨u', hu, hv'⟩ := hv.fork hx hfol
    obtain ⟨s', t', hs, hk', hc'⟩ := hk.fork_sign hc hu.forks
    exact ⟨s', _, hs.resumes, .last hk' hc' hv' hr⟩
  | more hk hc hv hy hz _ ih =>
    refine ih.behind fun hz' hps => ?_
    -- the white space behind the comma is skipped as far as before: no completion starts with any
    obtain ⟨y', hy', hskip⟩ := hz.fork hz'.forks (hz'.head (isSpace_of_skips hz) rfl)
    obtain ⟨u', x', hu, hv', hcomma⟩ := hv.fork_sign hy hy'
    obtain ⟨s', t', hs, hk', hc'⟩ := hk.fork_sign hc hu.forks
    exact ⟨s', _, hs.resumes, .more hk' hc' hv' hcomma hskip hps⟩

/-- Broken arguments are completed up to the parenthesis that closes them. -/
theorem Args.Broken.completable (h : Args.Broken s cause r) : Completable Args o s r := by
  induction h with
  | value h =>
    exact h.completable.close fun hs hv => ⟨_, _, hs, .last hv (sign_cons .closeParen _)⟩
  | behind hv h =>
    refine ⟨[')'], fun z => ?_⟩
    obtain ⟨t', ht, hfol, hr⟩ := h.2.1.sign (o := .closeParen) (by decide) (o.char :: z)
    obtain ⟨s', hs, hv'⟩ := hv.fork ht hfol
    exact ⟨s', _, hs.resumes, .last hv' hr⟩
  | more hv hu hz _ ih =>
    refine ih.behind fun hx hvs => ?_
    obtain ⟨u', hu', hskip⟩ := hz.fork hx.forks (hx.head (isSpace_of_skips hz) rfl)
    obtain ⟨s', t', hs, hv', hcomma⟩ := hv.fork_sign hu hu'
    exact ⟨s', _, hs.resumes, .more hv' hcomma hskip hvs⟩

/-! ### Pipelines and origins

At the end of the text, a rule need not be broken to be in want of a completion: a pipeline may end
with a processor that has no name, and it gets one in front of what follows. -/

/-- Where a processor is due, the `x` is one. -/
theorem Stages.completable_name (h : Skips isSpace s r) : Completable Stages .comma s r := by
  refine ⟨['x'], fun z => ?_⟩
  obtain ⟨s', hs, -, ha⟩ := h.atom .comma z
  exact ⟨s', _, hs, .last (.named ha (.absent (not_sign_comma (by decide) z)))
    (not_sign_comma (by decide) z)⟩

/-- A pipeline is completed as what is left of it behind one of its bars is. -/
theorem Stages.completable_more {p : Processor} (hp : Stage s p t) (hbar : Sign .bar t u)
    (h : Completable Stages .comma u r) : Completable Stages .comma s r := by
  refine h.behind fun hu hps => ?_
  obtain ⟨t', ht, hbar'⟩ := hbar.fork hu.forks
  obtain ⟨s', hs, hp'⟩ := hp.fork_late ht
  exact ⟨s', _, hs.resumes, .more hp' hbar' hps⟩

/-- A broken pipeline is completed in front of a comma. -/
theorem Stages.Broken.completable (h : Stages.Broken s cause r) :
    Completable Stages .comma s r := by
  induction h with
  | name h _ => exact Stages.completable_name h.1
  | args ha ho h =>
    refine h.completable.behind fun hu hargs => ?_
    obtain ⟨s', t', hs, ha', ho'⟩ := ha.fork_sign ho hu.forks
    exact ⟨s', _, hs.resumes, .last (.named ha' (.present ho' hargs))
      (not_sign_comma (by decide) _)⟩
  | more hp hbar _ ih => exact Stages.completable_more hp hbar ih

/-- A pipeline that reaches up to the end of the text is completed there, by the name of its last
processor if that has none. -/
theorem Stages.completable {ps : List Processor} (h : Stages s ps r) (hr : r = []) :
    Completable Stages .comma s [] := by
  induction h with
  | last hp hno =>
    -- the last processor is in want of a name, or only of a comma behind it
    subst hr
    cases hp with
    | named ha hargs =>
      refine ⟨[], fun z => ?_⟩
      obtain ⟨t', ht, hfol, hargs'⟩ := hargs.fork (fun h => h.fork (Forks.refl [] (',' :: z)))
        (Forks.refl [] (',' :: z)) (follows_comma [] z)
      obtain ⟨s', hs, ha'⟩ := ha.fork ht (hfol.stops ha.stops)
      exact ⟨s', _, hs.resumes, .last (.named ha' hargs') (not_sign_comma (by decide) z)⟩
    | nameless hs => exact Stages.completable_name hs
  | more hp hbar _ ih => exact Stages.completable_more hp hbar (ih hr)

/-- Where an origin is due, the `x` is one: a field. -/
theorem Source.completable_name (h : Skips isSpace s r) : Completable Source .comma s r := by
  refine ⟨['x'], fun z => ?_⟩
  obtain ⟨s', hs, -, ha⟩ := h.atom .comma z
  refine ⟨s', _, hs, .field ha fun c hc => ?_⟩
  obtain rfl : 'x' = c := by simpa using hc
  decide

/-- A type is completed as its pipeline is. -/
theorem Source.completable_stages {name : String} {params : Option (List Param)}
    (ha : Atom s name t) (hname : ∀ c ∈ name.toList.head?, ¬ 'a' < c)
    (hps : Optional .openParen Params t params u) (hbar : Sign .bar u x)
    (h : Completable Stages .comma x r) : Completable Source .comma s r := by
  refine h.behind fun hx hpipe => ?_
  obtain ⟨u', hu, hbar'⟩ := hbar.fork hx.forks
  obtain ⟨t', ht, hfol, hps'⟩ := hps.fork (fun h => h.fork hu.forks) hu.forks hu.follows
  obtain ⟨s', hs, ha'⟩ := ha.fork ht (hfol.stops ha.stops)
  exact ⟨s', _, hs.resumes, .type ha' hname hps' (.present hbar' hpipe) nofun⟩

/-- A broken origin is completed in front of a comma. -/
theorem Source.Broken.completable (h : Source.Broken s cause r) :
    Completable Source .comma s r := by
  cases h with
  | name h _ => exact Source.completable_name h.1
  | missing hs => exact Source.completable_name hs
  | params ha hname ho h =>
    refine h.completable.behind fun hu hps => ?_
    obtain ⟨s', t', hs, ha', ho'⟩ := ha.fork_sign ho hu.forks
    exact ⟨s', _, hs.resumes, .type ha' hname (.present ho' hps)
      (.absent (not_sign_comma (by decide) _)) nofun⟩
  | stages ha hname hps hbar h => exact Source.completable_stages ha hname hps hbar h.completable
  | behind ha hname h _ =>
    refine ⟨[], fun z => ?_⟩
    -- the name alone is a type, so the comma takes the place of what cannot follow it
    obtain rfl := ha.stops.eq_of_skips h.2.1
    obtain ⟨s', hs, ha'⟩ := ha.fork (Forks.refl _ (',' :: z)) (stops_cons .comma z)
    exact ⟨s', _, hs.resumes, .type ha' hname (.absent (not_sign_comma (by decide) z))
      (.absent (not_sign_comma (by decide) z)) fun _ _ => (endsStatement_comma z).endsType⟩

/-- An origin that reaches up to the end of the text is completed there. -/
theorem Source.completable {origin : Origin} (h : Source s origin []) :
    Completable Source .comma s [] := by
  cases h with
  | field ha hc =>
    refine ⟨[], fun z => ?_⟩
    obtain ⟨s', hs, ha'⟩ := ha.fork (Forks.refl [] (',' :: z)) (stops_cons .comma z)
    exact ⟨s', _, hs.resumes, .field ha' hc⟩
  | type ha hname hps hpipe hends =>
    cases hpipe with
    | present hbar hpipe =>
      exact Source.completable_stages ha hname hps hbar (hpipe.completable rfl)
    | absent hno =>
      refine ⟨[], fun z => ?_⟩
      obtain ⟨t', ht, hfol, hps'⟩ := hps.fork (fun h => h.fork (Forks.refl [] (',' :: z)))
        (Forks.refl [] (',' :: z)) (follows_comma [] z)
      obtain ⟨s', hs, ha'⟩ := ha.fork ht (hfol.stops ha.stops)
      refine ⟨s', _, hs.resumes,
        .type ha' hname hps' (.absent (not_sign_comma (by decide) z)) fun hnone _ => ?_⟩
      -- a bare type name, which the comma ends
      subst hnone
      rw [← hps'.rest_eq_of_none]
      exact (endsStatement_comma z).endsType

/-! ### Starts of statements -/

/-- The start of a statement with a name and an origin, as the rule for one thing. -/
def Start (s : List Char) (a : String × Option Origin) (r : List Char) : Prop :=
  Head s a.1 a.2 r

/-- Where a statement is due, the `x` is one. -/
theorem Head.completable_name (h : Skips isSpace s r) : Completable Start .comma s r := by
  refine ⟨['x'], fun z => ?_⟩
  obtain ⟨s', hs, -, ha⟩ := h.atom .comma z
  exact ⟨s', (_, none), hs, _, ha, .absent (not_sign_comma (by decide) z)⟩

/-- The start of a statement is completed as its origin is. -/
theorem Head.completable_origin {name : String} (ha : Atom s name t) (hc : Sign .colon t u)
    (h : Completable Source .comma u r) : Completable Start .comma s r := by
  refine h.behind fun hu ho => ?_
  obtain ⟨s', t', hs, ha', hc'⟩ := ha.fork_sign hc hu.forks
  exact ⟨s', (_, some _), hs.resumes, t', ha', .present hc' ho⟩

/-- A broken start of a statement is completed in front of a comma. -/
theorem Head.Broken.completable (h : Head.Broken s cause r) : Completable Start .comma s r := by
  cases h with
  | name h _ => exact Head.completable_name h.1
  | origin ha hc h => exact Head.completable_origin ha hc h.completable

/-- A start of a statement that reaches up to the end of the text is completed there. -/
theorem Head.completable {name : String} {origin : Option Origin} (h : Head s name origin []) :
    Completable Start .comma s [] := by
  obtain ⟨t, ha, ho⟩ := h
  cases ho with
  | present hc ho => exact Head.completable_origin ha hc ho.completable
  | absent hno =>
    refine ⟨[], fun z => ?_⟩
    obtain ⟨s', hs, ha'⟩ := ha.fork (Forks.refl [] (',' :: z)) (stops_cons .comma z)
    exact ⟨s', (_, none), hs.resumes, _, ha', .absent (not_sign_comma (by decide) z)⟩

end FieldMapping.Grammar
