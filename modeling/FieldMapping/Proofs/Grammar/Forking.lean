import FieldMapping.Proofs.Grammar.Broken
import FieldMapping.Proofs.Grammar.Image

/-!
# Texts that fork

Two texts fork into `x` and `y` if they begin alike and go on with `x` in the one and with `y` in
the other (`Forks`). A rule of the grammar that reads a piece of the first text reads the same from
the second, as long as it does not get behind the fork:

* a rule that ends with an operator reads up to the fork itself, whatever follows (`Sign.fork`,
  `Params.fork`, `Args.fork`);
* every other rule looks ahead for the end of an atom, or for an operator that would continue what
  it has read. It reads up to the fork if the second text gives it no more reason to go on than the
  first (`Follows`).

Where what comes next is in the common beginning (`ForksLate`), both texts give the same reasons.
-/

namespace FieldMapping.Grammar

open Text Scan

variable {x y s s' t t' r r' u : List Char} {o : Operator} {c : Char}

/-! ### Forks -/

/-- The texts `s` and `s'` begin alike, and then `s` goes on with `x` and `s'` with `y`. -/
def Forks (x y s s' : List Char) : Prop :=
  ∃ p, s = p ++ x ∧ s' = p ++ y

/-- The texts `s` and `s'` fork into `x` and `y` behind a character that is no blank. -/
def ForksLate (x y s s' : List Char) : Prop :=
  ∃ w c p, (∀ b ∈ w, isBlank b = true) ∧ isBlank c = false ∧
    s = w ++ c :: (p ++ x) ∧ s' = w ++ c :: (p ++ y)

theorem Forks.refl (x y : List Char) : Forks x y x y :=
  ⟨[], rfl, rfl⟩

/-- What is put in front of both texts is part of their common beginning. -/
theorem Forks.append (u : List Char) (h : Forks x y s s') : Forks x y (u ++ s) (u ++ s') := by
  obtain ⟨p, rfl, rfl⟩ := h
  exact ⟨u ++ p, by simp, by simp⟩

theorem ForksLate.forks (h : ForksLate x y s s') : Forks x y s s' := by
  obtain ⟨w, c, p, -, -, rfl, rfl⟩ := h
  exact ⟨w ++ c :: p, by simp, by simp⟩

/-- Behind a character that is no blank, every fork is late. -/
theorem Forks.late (h : Forks x y s s') (u : List Char) (hc : isBlank c = false) :
    ForksLate x y (u ++ c :: s) (u ++ c :: s') := by
  obtain ⟨p, rfl, rfl⟩ := h
  -- the first character that is no blank is in `u`, or it is `c`
  cases hu : u.dropWhile isBlank with
  | nil => exact ⟨u, c, p, List.dropWhile_eq_nil_iff.1 hu, hc, rfl, rfl⟩
  | cons d v =>
    obtain ⟨w, rfl, hw, hd⟩ := dropWhile_eq_iff.1 hu
    exact ⟨w, d, v ++ c :: p, hw, hd d rfl, by simp, by simp⟩

/-- A late fork stays late behind whatever both texts begin with. -/
theorem ForksLate.append (u : List Char) (h : ForksLate x y s s') :
    ForksLate x y (u ++ s) (u ++ s') := by
  obtain ⟨w, c, p, -, hc, rfl, rfl⟩ := h
  have h := (Forks.append p (Forks.refl x y)).late (u ++ w) hc
  simpa using h

theorem ForksLate.ne_nil (h : ForksLate x y s s') : s ≠ [] := by
  obtain ⟨w, c, p, -, -, rfl, -⟩ := h
  simp

/-- Texts that fork late start with the same character. -/
theorem ForksLate.head?_eq (h : ForksLate x y s s') : s'.head? = s.head? := by
  obtain ⟨w, c, p, -, -, rfl, rfl⟩ := h
  cases w <;> rfl

/-- The same character comes next in texts that fork late. -/
theorem ForksLate.significant_eq (h : ForksLate x y s s') :
    ∃ c v v', significant s = c :: v ∧ significant s' = c :: v' := by
  obtain ⟨w, c, p, hw, hc, rfl, rfl⟩ := h
  exact ⟨c, _, _, dropWhile_append_eq hw (by simpa using hc),
    dropWhile_append_eq hw (by simpa using hc)⟩

/-- An operator that comes next in one of two texts that fork late comes next in the other. -/
theorem ForksLate.exists_sign (h : ForksLate x y s s') (hs : Sign o s' t) : ∃ u, Sign o s u := by
  obtain ⟨c, v, v', hv, hv'⟩ := h.significant_eq
  rw [sign_iff, hv'] at hs
  obtain ⟨rfl, -⟩ := List.cons.inj hs
  exact ⟨v, sign_iff.2 hv⟩

theorem ForksLate.symm (h : ForksLate x y s s') : ForksLate y x s' s := by
  obtain ⟨w, c, p, hw, hc, hs, hs'⟩ := h
  exact ⟨w, c, p, hw, hc, hs', hs⟩

/-- A quote comes next in one of two texts that fork late if it does in the other. -/
theorem ForksLate.quoteNext_iff (h : ForksLate x y s s') : QuoteNext s' ↔ QuoteNext s := by
  obtain ⟨c, v, v', hv, hv'⟩ := h.significant_eq
  simp only [← startsQuoted_iff, startsQuoted, hv, hv']
  rfl

/-- What ends a statement in front of a late fork does so in both texts. -/
theorem ForksLate.endsStatement (h : ForksLate x y s s') (hs : EndsStatement s) :
    EndsStatement s' := by
  obtain ⟨o, r, ho, hr⟩ := hs
  obtain ⟨u, hu⟩ := h.symm.exists_sign hr
  exact ⟨o, u, ho, hu⟩

/-- What ends a bare type name in front of a late fork does so in both texts. -/
theorem ForksLate.endsType (h : ForksLate x y s s') (hs : EndsType s) : EndsType s' := by
  rcases hs with ⟨o, r, ho, hr⟩ | hend
  · obtain ⟨u, hu⟩ := h.symm.exists_sign hr
    exact .inl ⟨o, u, ho, hu⟩
  · -- something comes next, so the text does not end
    obtain ⟨c, v, v', hv, -⟩ := h.significant_eq
    exact absurd ((skips_iff.1 hend).symm.trans hv) (by simp)

/-! ### What follows -/

/-- The operators that make a rule go on. -/
def continuing : List Operator :=
  [.colon, .openParen, .bar, .openBracket]

/-- A rule that stops in front of `s` does not go on in front of `s'`: an atom that ends in front of
`s` ends there, and no operator that would continue something comes next unless it does in `s`. -/
structure Follows (s s' : List Char) : Prop where
  stops : Stops s → Stops s'
  exists_sign : ∀ o ∈ continuing, ∀ t, Sign o s' t → ∃ u, Sign o s u

/-- An operator that does not come next in `s`, where it would continue a rule, does not in `s'`. -/
theorem Follows.not_sign (h : Follows s s') (hno : ∀ t, ¬ Sign o s t)
    (ho : o ∈ continuing := by decide) : ∀ t, ¬ Sign o s' t := by
  intro t ht
  obtain ⟨u, hu⟩ := h.exists_sign o ho t ht
  exact hno u hu

theorem ForksLate.stops (h : ForksLate x y s s') (hs : Stops s) : Stops s' := by
  rwa [Stops, h.head?_eq]

/-- A late fork gives no reason to go on. -/
theorem ForksLate.follows (h : ForksLate x y s s') : Follows s s' :=
  ⟨h.stops, fun _ _ _ ht => h.exists_sign ht⟩

/-! ### Tokens and atoms -/

/-- Skipping stops at the fork if the second text goes on with a character that stops it. -/
theorem Skips.fork {p : Char → Bool} (h : Skips p s t) (hf : Forks x y t t')
    (ht : ∀ c ∈ t'.head?, p c = false) : ∃ s', Forks x y s s' ∧ Skips p s' t' := by
  obtain ⟨u, rfl, hu, -⟩ := h
  exact ⟨u ++ t', hf.append u, u, rfl, hu, ht⟩

/-- An operator is read in front of the fork whatever follows it. -/
theorem Sign.fork (h : Sign o s t) (hf : Forks x y t t') :
    ∃ s', ForksLate x y s s' ∧ Sign o s' t' := by
  obtain ⟨w, rfl, hw, hc⟩ := h
  exact ⟨w ++ o.char :: t', hf.late w (hc _ rfl), w, rfl, hw, by simpa using hc⟩

/-- An atom ends in front of an operator or at the end of the text. -/
theorem Atom.stops {a : String} (h : Atom s a t) : Stops t := by
  obtain ⟨run, -, -, -, hstop, -⟩ := h
  exact hstop

/-- An atom reads up to the fork if the second text stops it there. -/
theorem Atom.fork {a : String} (h : Atom s a t) (hf : Forks x y t t') (ht : Stops t') :
    ∃ s', ForksLate x y s s' ∧ Atom s' a t' := by
  obtain ⟨run, ⟨w, rfl, hw, hhead⟩, hne, hrun, -, rfl⟩ := h
  obtain ⟨c, run, rfl⟩ := List.exists_cons_of_ne_nil hne
  have hc : isSpace c = false := hhead c rfl
  refine ⟨w ++ c :: (run ++ t'), (hf.append run).late w (isBlank_of_isSpace hc), c :: run,
    ⟨w, rfl, hw, by simpa using hc⟩, by simp, hrun, ht, rfl⟩

theorem Atom.fork_late {a : String} (h : Atom s a t) (ht : ForksLate x y t t') :
    ∃ s', ForksLate x y s s' ∧ Atom s' a t' :=
  h.fork ht.forks (ht.stops h.stops)

/-- An atom and the operator behind it read the same whatever follows them. -/
theorem Atom.fork_sign {a : String} (h : Atom s a t) (ho : Sign o t u) {u' : List Char}
    (hu : Forks x y u u') : ∃ s' t', ForksLate x y s s' ∧ Atom s' a t' ∧ Sign o t' u' := by
  obtain ⟨t', ht, ho'⟩ := ho.fork hu
  obtain ⟨s', hs, h'⟩ := h.fork_late ht
  exact ⟨s', t', hs, h', ho'⟩

/-- A literal ends with its own quote, so it reads the same whatever follows it. -/
theorem Literal.fork {a : String} (h : Literal s a t) (hf : Forks x y t t') :
    ∃ s', ForksLate x y s s' ∧ Literal s' a t' := by
  obtain ⟨q, body, hq, hbody, rfl, rfl⟩ := h
  have hblank : isBlank q = false := isBlank_of_isSpace (isSpace_of_isQuote hq)
  -- the opening quote comes in front of the fork, and it is no blank
  refine ⟨q :: body ++ q :: t', ?_, q, body, hq, hbody, rfl, rfl⟩
  simpa using (hf.append (body ++ [q])).late [] hblank

/-! ### Values, parameters and arguments -/

/-- A value reads up to the fork if the second text gives no reason to go on to an index. -/
theorem Val.fork {v : Value} (h : Val s v t) (hf : Forks x y t t') (hfol : Follows t t') :
    ∃ s', ForksLate x y s s' ∧ Val s' v t' := by
  cases h with
  | literal hs ha =>
    obtain ⟨u', hu, ha⟩ := ha.fork hf
    obtain ⟨w, rfl, hw, hhead⟩ := hs
    exact ⟨w ++ u', hu.append w, .literal ⟨w, rfl, hw, hu.head?_eq ▸ hhead⟩ ha⟩
  | plain hq ha hno =>
    obtain ⟨s', hs, ha'⟩ := ha.fork hf (hfol.stops ha.stops)
    exact ⟨s', hs, .plain (hs.quoteNext_iff.not.2 hq) ha' (hfol.not_sign hno)⟩
  | indexed hq hbase ho hindex hc =>
    -- from the closing bracket back to the base: each part is read in front of the next
    obtain ⟨x', hx, hc'⟩ := hc.fork hf
    obtain ⟨u', hu, hindex'⟩ := hindex.fork_late hx
    obtain ⟨s', t'', hs, hbase', ho'⟩ := hbase.fork_sign ho hu.forks
    exact ⟨s', hs, .indexed (hs.quoteNext_iff.not.2 hq) hbase' ho' hindex' hc'⟩

theorem Val.fork_late {v : Value} (h : Val s v t) (ht : ForksLate x y t t') :
    ∃ s', ForksLate x y s s' ∧ Val s' v t' :=
  h.fork ht.forks ht.follows

/-- A value and the operator behind it read the same whatever follows them. -/
theorem Val.fork_sign {v : Value} (h : Val s v t) (ho : Sign o t u) {u' : List Char}
    (hu : Forks x y u u') : ∃ s' t', ForksLate x y s s' ∧ Val s' v t' ∧ Sign o t' u' := by
  obtain ⟨t', ht, ho'⟩ := ho.fork hu
  obtain ⟨s', hs, h'⟩ := h.fork_late ht
  exact ⟨s', t', hs, h', ho'⟩

/-- Parameters end with their parenthesis, so they read the same whatever follows them. -/
theorem Params.fork {ps : List Param} (h : Params s ps t) (hf : Forks x y t t') :
    ∃ s', ForksLate x y s s' ∧ Params s' ps t' := by
  induction h with
  | key hk hr =>
    obtain ⟨s', u', hs, hk', hr'⟩ := hk.fork_sign hr hf
    exact ⟨s', hs, .key hk' hr'⟩
  | last hk hc hv hr =>
    obtain ⟨v', x', hv', hval, hr'⟩ := hv.fork_sign hr hf
    obtain ⟨s', u', hs, hk', hc'⟩ := hk.fork_sign hc hv'.forks
    exact ⟨s', hs, .last hk' hc' hval hr'⟩
  | more hk hc hv hy hz _ ih =>
    -- from the fork back to the start: each part is read in front of what is read already
    obtain ⟨z', hz', hps⟩ := ih hf
    obtain ⟨y', hy', hskip⟩ := hz.fork hz'.forks (hz'.head?_eq ▸ isSpace_of_skips hz)
    obtain ⟨v', x', hv', hval, hcomma⟩ := hv.fork_sign hy hy'
    obtain ⟨s', u', hs, hk', hc'⟩ := hk.fork_sign hc hv'.forks
    exact ⟨s', hs, .more hk' hc' hval hcomma hskip hps⟩

/-- Arguments end with their parenthesis, so they read the same whatever follows them. -/
theorem Args.fork {vs : List Value} (h : Args s vs t) (hf : Forks x y t t') :
    ∃ s', ForksLate x y s s' ∧ Args s' vs t' := by
  induction h with
  | last hv hr =>
    obtain ⟨s', u', hs, hv', hr'⟩ := hv.fork_sign hr hf
    exact ⟨s', hs, .last hv' hr'⟩
  | more hv hu hz _ ih =>
    obtain ⟨z', hz', hvs⟩ := ih hf
    obtain ⟨u', hu', hskip⟩ := hz.fork hz'.forks (hz'.head?_eq ▸ isSpace_of_skips hz)
    obtain ⟨s', t'', hs, hv', hcomma⟩ := hv.fork_sign hu hu'
    exact ⟨s', hs, .more hv' hcomma hskip hvs⟩

/-! ### Pipelines and origins -/

/-- An optional part reads up to the fork if its rule does; where it is absent, what follows must
not introduce it. -/
theorem Optional.fork {α : Type} {R : List Char → α → List Char → Prop} {a : Option α}
    (hR : ∀ {t b}, R t b r → ∃ t', ForksLate x y t t' ∧ R t' b r') (h : Optional o R s a r)
    (hf : Forks x y r r') (hfol : Follows r r') (ho : o ∈ continuing := by decide) :
    ∃ s', Forks x y s s' ∧ Follows s s' ∧ Optional o R s' a r' := by
  cases h with
  | present hs hb =>
    obtain ⟨t', ht, hb'⟩ := hR hb
    obtain ⟨s', hs', ho'⟩ := hs.fork ht.forks
    exact ⟨s', hs'.forks, hs'.follows, .present ho' hb'⟩
  | absent hno =>
    -- nothing is read, so the fork itself is what follows
    exact ⟨r', hf, hfol, .absent (hfol.not_sign hno ho)⟩

/-- An absent part reads nothing. -/
theorem Optional.rest_eq_of_none {α : Type} {R : List Char → α → List Char → Prop}
    (h : Optional o R s none r) : r = s := by
  cases h
  rfl

/-- A processor that is not the end of the text reads the same in front of what follows as well. -/
theorem Stage.fork {p : Processor} (h : Stage s p r) (hf : Forks x y r r') (hfol : Follows r r')
    (hr : r ≠ []) : ∃ s', ForksLate x y s s' ∧ Stage s' p r' := by
  cases h with
  | named ha hargs =>
    obtain ⟨t', ht, hfol', hargs'⟩ := hargs.fork (fun h => h.fork hf) hf hfol
    obtain ⟨s', hs, ha'⟩ := ha.fork ht (hfol'.stops ha.stops)
    exact ⟨s', hs, .named ha' hargs'⟩
  | nameless hs => exact absurd rfl hr

theorem Stage.fork_late {p : Processor} (h : Stage s p r) (hr : ForksLate x y r r') :
    ∃ s', ForksLate x y s s' ∧ Stage s' p r' :=
  h.fork hr.forks hr.follows hr.ne_nil

/-- A pipeline that is not the end of the text reads the same in front of what follows as well. -/
theorem Stages.fork {ps : List Processor} (h : Stages s ps r) (hf : Forks x y r r')
    (hfol : Follows r r') (hr : r ≠ []) : ∃ s', ForksLate x y s s' ∧ Stages s' ps r' := by
  induction h with
  | last hp hno =>
    obtain ⟨s', hs, hp'⟩ := hp.fork hf hfol hr
    exact ⟨s', hs, .last hp' (hfol.not_sign hno)⟩
  | more hp hbar _ ih =>
    obtain ⟨u', hu, hps⟩ := ih hf hfol hr
    obtain ⟨t', ht, hbar'⟩ := hbar.fork hu.forks
    obtain ⟨s', hs, hp'⟩ := hp.fork_late ht
    exact ⟨s', hs, .more hp' hbar' hps⟩

/-- An origin that is not the end of the text reads up to the fork, if a bare type name may end
there. -/
theorem Source.fork {origin : Origin} (h : Source s origin r) (hf : Forks x y r r')
    (hfol : Follows r r') (hends : EndsType r → EndsType r') (hr : r ≠ []) :
    ∃ s', ForksLate x y s s' ∧ Source s' origin r' := by
  cases h with
  | field ha hc =>
    obtain ⟨s', hs, ha'⟩ := ha.fork hf (hfol.stops ha.stops)
    exact ⟨s', hs, .field ha' hc⟩
  | type ha hc hps hpipe hnone =>
    -- the pipeline is in front of the fork, the parameters in front of the pipeline
    obtain ⟨u', hu, hfol', hpipe'⟩ := hpipe.fork (fun h => h.fork hf hfol hr) hf hfol
    obtain ⟨t', ht, hfol'', hps'⟩ := hps.fork (fun h => h.fork hu) hu hfol'
    obtain ⟨s', hs, ha'⟩ := ha.fork ht (hfol''.stops ha.stops)
    refine ⟨s', hs, .type ha' hc hps' hpipe' fun hp hq => ?_⟩
    -- with neither parameters nor a pipeline, the end of the type is the end of its name
    subst hp hq
    obtain rfl := hps.rest_eq_of_none
    obtain rfl := hpipe.rest_eq_of_none
    rw [← hps'.rest_eq_of_none, ← hpipe'.rest_eq_of_none]
    exact hends (hnone rfl rfl)

/-- The start of a statement reads up to the fork as its origin does. -/
theorem Head.fork {name : String} {origin : Option Origin} (h : Head s name origin r)
    (hf : Forks x y r r') (hfol : Follows r r') (hends : EndsType r → EndsType r') (hr : r ≠ []) :
    ∃ s', ForksLate x y s s' ∧ Head s' name origin r' := by
  obtain ⟨t, ha, ho⟩ := h
  obtain ⟨t', ht, hfol', ho'⟩ := ho.fork (fun h => h.fork hf hfol hends hr) hf hfol
  obtain ⟨s', hs, ha'⟩ := ha.fork ht (hfol'.stops ha.stops)
  exact ⟨s', hs, t', ha', ho'⟩

theorem Head.fork_late {name : String} {origin : Option Origin} (h : Head s name origin r)
    (hr : ForksLate x y r r') : ∃ s', ForksLate x y s s' ∧ Head s' name origin r' :=
  h.fork hr.forks hr.follows hr.endsType hr.ne_nil

end FieldMapping.Grammar
