import FieldMapping.Proofs.Fault.Place
import FieldMapping.Proofs.Grammar.Forking

/-!
# The first violation decides

What stands behind the character at which a text is refused has no influence on the refusal. A rule
that is broken at a character is broken there by every text that agrees up to that character
(`Statements.Broken.decided`), since all that is read in front of it reads the same, and the report
shows nothing of what follows it.
-/

namespace FieldMapping

open Text

namespace Grammar

variable {s : List Char} {c : Char} {x y r : List Char} {cause : Cause}

/-! ### Broken rules

What is read in front of the place is read again, from the place back to the start: each rule is
followed by one whose text forks late, so it reads the same from both texts. -/

/-- Where an atom is missing at a character, it is missing there whatever follows the character. -/
theorem Atom.Missing.decided (h : Atom.Missing s cause r) (hr : r = c :: x) :
    ∃ s', ForksLate x y s s' ∧ Atom.Missing s' cause (c :: y) := by
  subst hr
  obtain ⟨⟨w, rfl, hw, hc⟩, hstop, rfl⟩ := h
  exact ⟨w ++ c :: y, (Forks.refl x y).late w (isBlank_of_isSpace (hc c rfl)),
    ⟨w, rfl, hw, by simpa using hc⟩, by simpa [Stops] using hstop, rfl⟩

/-- Where an operator is missing at a character, it is missing there whatever follows the
character. -/
theorem Sign.Missing.decided {os : List Operator} (h : Sign.Missing os s cause r)
    (hr : r = c :: x) : ∃ s', ForksLate x y s s' ∧ Sign.Missing os s' cause (c :: y) := by
  subst hr
  obtain ⟨hno, ⟨w, rfl, hw, hc⟩, rfl⟩ := h
  have hs := (Forks.refl x y).late w (hc c rfl)
  refine ⟨w ++ c :: y, hs, fun o ho t ht => ?_, ⟨w, rfl, hw, by simpa using hc⟩, rfl⟩
  -- an operator that came next in the second text would come next in the first
  obtain ⟨u, hu⟩ := hs.exists_sign ht
  exact hno o ho u hu

/-- A value that is broken at a character is broken there whatever follows. A literal that is not
closed is broken at no character, but at the end of the text. -/
theorem Val.Broken.decided (h : Val.Broken s cause r) (hr : r = c :: x) :
    ∃ s', ForksLate x y s s' ∧ Val.Broken s' cause (c :: y) := by
  cases h with
  | quote hs hq hbody => cases hr
  | base hq h =>
    -- whether a literal starts is decided in front of the fork
    obtain ⟨s', hs, h'⟩ := h.decided hr
    exact ⟨s', hs, .base (hs.quoteNext_iff.not.2 hq) h'⟩
  | index hq hbase ho h =>
    obtain ⟨u', hu, h'⟩ := h.decided hr
    obtain ⟨s', t', hs, hbase', ho'⟩ := hbase.fork_sign ho hu.forks
    exact ⟨s', hs, .index (hs.quoteNext_iff.not.2 hq) hbase' ho' h'⟩
  | bracket hq hbase ho hindex h =>
    obtain ⟨x', hx, h'⟩ := h.decided hr
    obtain ⟨u', hu, hindex'⟩ := hindex.fork_late hx
    obtain ⟨s', t', hs, hbase', ho'⟩ := hbase.fork_sign ho hu.forks
    exact ⟨s', hs, .bracket (hs.quoteNext_iff.not.2 hq) hbase' ho' hindex' h'⟩

/-- Parameters that are broken at a character are broken there whatever follows. -/
theorem Params.Broken.decided (h : Params.Broken s cause r) (hr : r = c :: x) :
    ∃ s', ForksLate x y s s' ∧ Params.Broken s' cause (c :: y) := by
  induction h with
  | key h =>
    obtain ⟨s', hs, h'⟩ := h.decided hr
    exact ⟨s', hs, .key h'⟩
  | sign hk h =>
    obtain ⟨t', ht, h'⟩ := h.decided hr
    obtain ⟨s', hs, hk'⟩ := hk.fork_late ht
    exact ⟨s', hs, .sign hk' h'⟩
  | value hk hc h =>
    obtain ⟨u', hu, h'⟩ := h.decided hr
    obtain ⟨s', t', hs, hk', hc'⟩ := hk.fork_sign hc hu.forks
    exact ⟨s', hs, .value hk' hc' h'⟩
  | behind hk hc hv h =>
    obtain ⟨x', hx, h'⟩ := h.decided hr
    obtain ⟨u', hu, hv'⟩ := hv.fork_late hx
    obtain ⟨s', t', hs, hk', hc'⟩ := hk.fork_sign hc hu.forks
    exact ⟨s', hs, .behind hk' hc' hv' h'⟩
  | more hk hc hv hy hz _ ih =>
    obtain ⟨z', hz', h'⟩ := ih hr
    obtain ⟨y', hy', hskip⟩ := hz.fork hz'.forks (hz'.head?_eq ▸ isSpace_of_skips hz)
    obtain ⟨u', x', hu, hv', hcomma⟩ := hv.fork_sign hy hy'
    obtain ⟨s', t', hs, hk', hc'⟩ := hk.fork_sign hc hu.forks
    exact ⟨s', hs, .more hk' hc' hv' hcomma hskip h'⟩

/-- Arguments that are broken at a character are broken there whatever follows. -/
theorem Args.Broken.decided (h : Args.Broken s cause r) (hr : r = c :: x) :
    ∃ s', ForksLate x y s s' ∧ Args.Broken s' cause (c :: y) := by
  induction h with
  | value h =>
    obtain ⟨s', hs, h'⟩ := h.decided hr
    exact ⟨s', hs, .value h'⟩
  | behind hv h =>
    obtain ⟨t', ht, h'⟩ := h.decided hr
    obtain ⟨s', hs, hv'⟩ := hv.fork_late ht
    exact ⟨s', hs, .behind hv' h'⟩
  | more hv hu hz _ ih =>
    obtain ⟨x', hx, h'⟩ := ih hr
    obtain ⟨u', hu', hskip⟩ := hz.fork hx.forks (hx.head?_eq ▸ isSpace_of_skips hz)
    obtain ⟨s', t', hs, hv', hcomma⟩ := hv.fork_sign hu hu'
    exact ⟨s', hs, .more hv' hcomma hskip h'⟩

/-- A pipeline that is broken at a character is broken there whatever follows. -/
theorem Stages.Broken.decided (h : Stages.Broken s cause r) (hr : r = c :: x) :
    ∃ s', ForksLate x y s s' ∧ Stages.Broken s' cause (c :: y) := by
  induction h with
  | name h _ =>
    obtain ⟨s', hs, h'⟩ := h.decided hr
    exact ⟨s', hs, .name h' (by simp)⟩
  | args ha ho h =>
    obtain ⟨u', hu, h'⟩ := h.decided hr
    obtain ⟨s', t', hs, ha', ho'⟩ := ha.fork_sign ho hu.forks
    exact ⟨s', hs, .args ha' ho' h'⟩
  | more hp hbar _ ih =>
    obtain ⟨u', hu, h'⟩ := ih hr
    obtain ⟨t', ht, hbar'⟩ := hbar.fork hu.forks
    obtain ⟨s', hs, hp'⟩ := hp.fork_late ht
    exact ⟨s', hs, .more hp' hbar' h'⟩

/-- An origin that is broken at a character is broken there whatever follows. -/
theorem Source.Broken.decided (h : Source.Broken s cause r) (hr : r = c :: x) :
    ∃ s', ForksLate x y s s' ∧ Source.Broken s' cause (c :: y) := by
  cases h with
  | name h _ =>
    obtain ⟨s', hs, h'⟩ := h.decided hr
    exact ⟨s', hs, .name h' (by simp)⟩
  | missing hs => cases hr
  | params ha hname ho h =>
    obtain ⟨u', hu, h'⟩ := h.decided hr
    obtain ⟨s', t', hs, ha', ho'⟩ := ha.fork_sign ho hu.forks
    exact ⟨s', hs, .params ha' hname ho' h'⟩
  | stages ha hname hps hbar h =>
    obtain ⟨x', hx, h'⟩ := h.decided hr
    obtain ⟨u', hu, hbar'⟩ := hbar.fork hx.forks
    -- parameters may be absent, and then the bar of the pipeline is what they are read in front of
    obtain ⟨t', ht, hfol, hps'⟩ := hps.fork (fun h => h.fork hu.forks) hu.forks hu.follows
    obtain ⟨s', hs, ha'⟩ := ha.fork ht (hfol.stops ha.stops)
    exact ⟨s', hs, .stages ha' hname hps' hbar' h'⟩
  | behind ha hname h _ =>
    obtain ⟨t', ht, h'⟩ := h.decided hr
    obtain ⟨s', hs, ha'⟩ := ha.fork_late ht
    exact ⟨s', hs, .behind ha' hname h' (by simp)⟩

/-- A start of a statement that is broken at a character is broken there whatever follows. -/
theorem Head.Broken.decided (h : Head.Broken s cause r) (hr : r = c :: x) :
    ∃ s', ForksLate x y s s' ∧ Head.Broken s' cause (c :: y) := by
  cases h with
  | name h _ =>
    obtain ⟨s', hs, h'⟩ := h.decided hr
    exact ⟨s', hs, .name h' (by simp)⟩
  | origin ha ho h =>
    obtain ⟨u', hu, h'⟩ := h.decided hr
    obtain ⟨s', t', hs, ha', ho'⟩ := ha.fork_sign ho hu.forks
    exact ⟨s', hs, .origin ha' ho' h'⟩

/-- Statements run on to each other in front of a late fork, whatever follows it. -/
theorem RunsOn.fork {t t' : List Char} (h : RunsOn s t) (ht : ForksLate x y t t') :
    ∃ s', ForksLate x y s s' ∧ RunsOn s' t' := by
  rcases h with ⟨o, ho, hs⟩ | ⟨⟨w, rfl, hw, hhead⟩, hno⟩
  · obtain ⟨s', hs', hs⟩ := hs.fork ht.forks
    exact ⟨s', hs', .inl ⟨o, ho, hs⟩⟩
  · exact ⟨w ++ t', ht.append w, .inr ⟨⟨w, rfl, hw, ht.head?_eq ▸ hhead⟩, ht.head?_eq ▸ hno⟩⟩

/-- A text that is broken at a character is broken there whatever follows the character. -/
theorem Statements.Broken.decided {limit n : Nat} {e : Bool}
    (h : Statements.Broken limit n e s cause r) (hr : r = c :: x) :
    ∃ s', ForksLate x y s s' ∧ Statements.Broken limit n e s' cause (c :: y) := by
  -- on the way the text is broken: each rule is read again in front of what is read again already
  induction h with
  | head h =>
    obtain ⟨s', hs, h'⟩ := h.decided hr
    exact ⟨s', hs, .head h'⟩
  | tooDeep hhead hb hlimit =>
    -- the place is behind the brace, and the texts fork one character later
    subst hr
    obtain ⟨t', ht, hb'⟩ := hb.fork ((Forks.refl x y).append [c])
    obtain ⟨s', hs, hhead'⟩ := hhead.fork_late ht
    exact ⟨s', hs, .tooDeep hhead' hb' hlimit⟩
  | unclosed hs => cases hr
  | unopened hs =>
    obtain ⟨rfl, rfl⟩ := List.cons.inj hr
    obtain ⟨w, rfl, hw, hhead⟩ := hs
    exact ⟨w ++ '}' :: y, (Forks.refl _ y).late w rfl, .unopened ⟨w, rfl, hw, by simpa using hhead⟩⟩
  | separate hs hne _ ih =>
    obtain ⟨t', ht, h'⟩ := ih hr
    obtain ⟨w, rfl, hw, hhead⟩ := hs
    exact ⟨w ++ t', ht.append w, .separate ⟨w, rfl, hw, ht.head?_eq ▸ hhead⟩ (ht.head?_eq ▸ hne) h'⟩
  | block hhead hb hlimit _ ih =>
    obtain ⟨u', hu, h'⟩ := ih hr
    obtain ⟨t', ht, hb'⟩ := hb.fork hu.forks
    obtain ⟨s', hs, hhead'⟩ := hhead.fork_late ht
    exact ⟨s', hs, .block hhead' hb' hlimit h'⟩
  | close hs _ ih =>
    obtain ⟨t', ht, h'⟩ := ih hr
    obtain ⟨w, rfl, hw, hhead⟩ := hs
    exact ⟨w ++ '}' :: t', ht.forks.late w rfl,
      .close ⟨w, rfl, hw, by simpa using hhead⟩ h'⟩
  | ended hhead hends _ ih =>
    obtain ⟨t', ht, h'⟩ := ih hr
    obtain ⟨s', hs, hhead'⟩ := hhead.fork_late ht
    exact ⟨s', hs, .ended hhead' (ht.endsStatement hends) h'⟩
  | runOn hhead hrun _ ih =>
    obtain ⟨u', hu, h'⟩ := ih hr
    obtain ⟨t', ht, hrun'⟩ := hrun.fork hu
    obtain ⟨s', hs, hhead'⟩ := hhead.fork_late ht
    exact ⟨s', hs, .runOn hhead' hrun' h'⟩

end Grammar

/-! ### Errors -/

open Grammar

/-- A report shows one character of what stands at and behind its place. -/
theorem ofOffset_append_cons (cause : Cause) (before : List Char) (c : Char) (x y : List Char) :
    SyntaxError.ofOffset cause (before ++ c :: x) (byteSize before) =
      .ofOffset cause (before ++ c :: y) (byteSize before) := by
  simp [SyntaxError.ofOffset, takeBytes_byteSize_append, SyntaxError.windowOf]

/-- An error in front of the end of the text is reported for every text that agrees up to the
character at its place, that character included. -/
theorem parse_eq_error_of_prefix {source : String} {limit : Nat} {e : SyntaxError}
    (h : parse source limit = .error e) (hplace : e.offset < source.utf8ByteSize) :
    ∃ before c after, source.toList = before ++ c :: after ∧ e.offset = byteSize before ∧
      ∀ source' : String, before ++ [c] <+: source'.toList → parse source' limit = .error e := by
  obtain ⟨before, after, hsource, hoffset, hbroken, he⟩ := broken_of_parse h
  obtain ⟨c, x, rfl⟩ : ∃ c x, after = c :: x := by
    -- an offset in front of the end leaves a character behind it
    refine List.exists_cons_of_ne_nil fun hnil => ?_
    rw [hoffset, (byteSize_eq_iff hsource).2 hnil] at hplace
    exact lt_irrefl _ hplace
  refine ⟨before, c, x, hsource, hoffset, fun source' hprefix => ?_⟩
  obtain ⟨y, hy⟩ := hprefix
  have hsource' : source'.toList = before ++ c :: y := by simp [← hy]
  obtain ⟨s', hs, hbroken'⟩ := hbroken.decided (y := y) rfl
  -- the two texts fork right behind the character
  obtain rfl : s' = source'.toList := by
    obtain ⟨p, hp, rfl⟩ := hs.forks
    obtain rfl : p = before ++ [c] :=
      List.append_cancel_right (hp.symm.trans (hsource.trans (by simp)))
    exact hy
  refine parse_eq_error_iff.2 ⟨e.cause, c :: y, hbroken', ?_⟩
  rw [he, hsource, hsource', ofOffset_append_cons _ _ _ x y]
  simp

/-- A parenthesis behind the name of a type is refused whatever follows it. -/
theorem parse_eq_error_of_stray_paren : ∃ e before c after, parse "a: B )" = .error e ∧
    e.offset < "a: B )".utf8ByteSize ∧ "a: B )".toList = before ++ c :: after ∧
    e.offset = byteSize before ∧
    ∀ source' : String, before ++ [c] <+: source'.toList → parse source' = .error e := by
  have h : parse "a: B )" = .error (.ofOffset (.unexpected ")") "a: B )".toList 5) := by
    decide +kernel
  have hplace : (SyntaxError.ofOffset (.unexpected ")") "a: B )".toList 5).offset <
      "a: B )".utf8ByteSize := by decide +kernel
  obtain ⟨before, c, after, hdecided⟩ := parse_eq_error_of_prefix h hplace
  exact ⟨_, before, c, after, h, hplace, hdecided⟩

end FieldMapping
