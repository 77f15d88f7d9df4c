import FieldMapping.Document
import FieldMapping.Proofs.Grammar.Reading
import FieldMapping.Proofs.Statement.Tree

/-!
# Parsing is derivation in the grammar

A parse succeeds on exactly the texts that the grammar derives, and with the statements that it
derives from them. Both directions go through the steps of a pass over the text:

* a derivation drives the pass. Along it, in any state that is due to read what it derives, the pass
  collects the statements it derives (`takes_of_statements`);
* a pass that ends with statements is read backwards. What is left of the text behind a step
  completes the blocks that are open there, and so does what was left in front of it
  (`completes_of_step`).

The limit enters each of them in one place: a pass opens a block only where fewer blocks are open
than the limit allows, and `nesting` counts the blocks in the same way.
-/

namespace FieldMapping.Grammar

open Text Scan Statement

variable {limit base : Nat} {w w' : Walk} {s t u r : List Char} {name : String}
  {origin : Option Origin} {ts : List Statement} {l : Level} {e : Bool}

/-! ### One statement -/

/-- Behind its name and its origin, what comes next decides how a statement goes on. -/
theorem takeStatement_of_head (h : Head s name origin t) :
    w.takeStatement limit base s =
      match nextToken t with
      | (.operator .openBrace, r) =>
        if w.depth base < limit then .next ((w.visit base name).openBlock name origin) r
        else .done ((w.visit base name).stop base (.here (.tooDeep limit) r))
      | (.operator .closeBrace, _) | (.operator .comma, _) | (.operator .newline, _) =>
        .next ((w.visit base name).add name origin true) t
      | (_, r) => .next ((w.visit base name).add name origin false) r := by
  obtain ⟨u, ha, ho⟩ := h
  unfold Walk.takeStatement
  -- the name is read up to `u`, the origin from there on up to `t`
  simp only [value_of_atom ha, if_neg ha.ne_empty, readOptional_eq_ok_iff.2 ho, Walk.depth_visit]
  rfl

/-- A brace behind the start of a statement opens its block, where the limit allows one more. -/
theorem takeStatement_block (h : Head s name origin t) (hb : Sign .openBrace t r)
    (hlimit : w.depth base < limit) : w.takeStatement limit base s =
      .next ((w.visit base name).openBlock name origin) r := by
  rw [takeStatement_of_head h, (nextToken_eq_iff (by decide)).2 hb]
  exact if_pos hlimit

/-- A block opens only where the limit allows it. -/
theorem takeStatement_tooDeep (h : Head s name origin t) (hb : Sign .openBrace t r)
    (hlimit : limit ≤ w.depth base) : w.takeStatement limit base s =
      .done ((w.visit base name).stop base (.here (.tooDeep limit) r)) := by
  rw [takeStatement_of_head h, (nextToken_eq_iff (by decide)).2 hb]
  exact if_neg (by omega)

/-- A statement that a separator or the end of its block stands behind is taken as it is, and the
sign is left for the next step. -/
theorem takeStatement_ended (h : Head s name origin t) (he : EndsStatement t) :
    w.takeStatement limit base s = .next ((w.visit base name).add name origin true) t := by
  obtain ⟨o, r, ho, hsign⟩ := he
  rw [takeStatement_of_head h, nextToken_of_sign hsign]
  simp only [List.mem_cons, List.not_mem_nil, or_false] at ho
  rcases ho with rfl | rfl | rfl <;> rfl

/-- What the next statement starts at or behind is none of the signs that tell how this one goes
on. -/
theorem nextToken_of_runsOn (h : RunsOn t r) : ∃ token, nextToken t = (token, r) ∧
    ∀ o ∈ [Operator.openBrace, .closeBrace, .comma, .newline], token ≠ .operator o := by
  rcases h with ⟨o, ho, hsign⟩ | ⟨hskip, hno⟩
  · have hcomma : o ≠ .comma := by
      rintro rfl
      exact absurd ho (by decide)
    -- a sign of another kind is the next token itself
    refine ⟨.operator o, (nextToken_eq_iff hcomma).2 hsign, ?_⟩
    rintro o' ho' ⟨⟩
    revert ho ho'
    cases o <;> decide
  · -- with no sign in front of it, the text is the next token's own start
    refine ⟨.ofHead r, nextToken_of_skips hskip hno, fun o _ hhead => ?_⟩
    cases r with
    | nil => cases hhead
    | cons c r =>
      have hc : Operator.ofChar? c = none := by simpa [isOperator] using hno c rfl
      simp [Token.ofHead_cons, Token.ofChar, hc] at hhead

/-- A statement that the next one runs on to is taken as it is, and the sign between them with
it. -/
theorem takeStatement_runOn (h : Head s name origin t) (hr : RunsOn t r) :
    w.takeStatement limit base s = .next ((w.visit base name).add name origin false) r := by
  obtain ⟨token, hnext, hno⟩ := nextToken_of_runsOn hr
  rw [takeStatement_of_head h, hnext]
  split <;> rename_i heq <;> cases heq
  all_goals first | rfl | exact absurd rfl (hno _ (by decide))

/-- Where only spaces are left of the text, the pass ends with what it has read. -/
theorem takeStatement_finish (h : Skips isSpace s []) :
    w.takeStatement limit base s = .done (w.finish base) := by
  unfold Walk.takeStatement
  rw [value_eq_ok_iff.2 (.inr ⟨h, rfl, rfl⟩)]
  rfl

/-- Where a statement is due, its name or its origin does not fit, the text is at its end, or a
statement starts. -/
theorem start_cases (s : List Char) : (∃ f, value s = .error f) ∨
    (∃ name t f, Atom s name t ∧ Origin.readOptional t = .error f) ∨
    Skips isSpace s [] ∨ ∃ name origin t, Head s name origin t := by
  cases hname : value s with
  | error f => exact .inl ⟨f, rfl⟩
  | ok p =>
    obtain ⟨name, u⟩ := p
    rcases value_eq_ok_iff.1 hname with ha | ⟨hs, -, -⟩
    · cases horigin : Origin.readOptional u with
      | error f => exact .inr (.inl ⟨name, u, f, ha, horigin⟩)
      | ok q =>
        exact .inr (.inr (.inr ⟨name, q.1, q.2, u, ha, readOptional_eq_ok_iff.1 horigin⟩))
    · exact .inr (.inr (.inl hs))

/-- Behind the start of a statement, a block opens, the statement ends, or the next one starts. -/
theorem behind_cases (t : List Char) :
    (∃ u, Sign .openBrace t u) ∨ EndsStatement t ∨ ∃ u, RunsOn t u := by
  rcases sign_or_skips t with ⟨o, u, hsign⟩ | ⟨u, hskip, hno⟩
  · by_cases hb : o = .openBrace
    · exact .inl ⟨u, hb ▸ hsign⟩
    · by_cases he : o ∈ [Operator.closeBrace, .comma, .newline]
      · exact .inr (.inl ⟨o, u, he, hsign⟩)
      · exact .inr (.inr ⟨u, .inl ⟨o, by cases o <;> simp_all, hsign⟩⟩)
  · exact .inr (.inr ⟨u, .inr ⟨hskip, hno⟩⟩)

/-- What is taken as a statement is one, and it goes on in one of three ways. -/
theorem of_takeStatement_next (h : w.takeStatement limit base s = .next w' r) :
    ∃ name origin t, Head s name origin t ∧
      (Sign .openBrace t r ∧ w.depth base < limit ∧
          w' = (w.visit base name).openBlock name origin ∨
        EndsStatement t ∧ r = t ∧ w' = (w.visit base name).add name origin true ∨
        RunsOn t r ∧ w' = (w.visit base name).add name origin false) := by
  rcases start_cases s with ⟨f, hname⟩ | ⟨name, u, f, ha, horigin⟩ | hs | ⟨name, origin, t, hhead⟩
  · -- a name, an origin or an end of the text that stops the pass is no next state
    rw [Walk.takeStatement, hname] at h
    cases h
  · simp only [Walk.takeStatement, value_of_atom ha, if_neg ha.ne_empty, horigin] at h
    cases h
  · rw [takeStatement_finish hs] at h
    cases h
  · -- the step has read the head; what stands behind it tells the three ways apart
    refine ⟨name, origin, t, hhead, ?_⟩
    rcases behind_cases t with ⟨u, hb⟩ | he | ⟨u, hr⟩
    · by_cases hlimit : w.depth base < limit
      · rw [takeStatement_block hhead hb hlimit] at h
        cases h
        exact .inl ⟨hb, hlimit, rfl⟩
      · rw [takeStatement_tooDeep hhead hb (by omega)] at h
        cases h
    · rw [takeStatement_ended hhead he] at h
      cases h
      exact .inr (.inl ⟨he, rfl, rfl⟩)
    · rw [takeStatement_runOn hhead hr] at h
      cases h
      exact .inr (.inr ⟨hr, rfl⟩)

/-! ### Steps -/

/-- What stands behind separators starts with no blank. -/
theorem significant_of_separators (h : Skips Walk.isSeparating s t) : significant t = t := by
  obtain ⟨u, -, -, ht⟩ := h
  refine dropWhile_eq_self fun c hc => ?_
  have h := ht c hc
  simp only [Walk.isSeparating, Bool.or_eq_false_iff] at h
  simp [isBlank, h.1]

/-- Behind the end of a statement, white space and commas are skipped. -/
theorem step_of_separators (hw : w.ended = true) (h : Skips Walk.isSeparating s t)
    (ht : t.head? ≠ some '}') : w.step limit base s = w.takeStatement limit base t := by
  unfold Walk.step
  rw [if_pos hw, skips_iff.1 h]
  dsimp only
  split <;> rename_i hclose
  · rw [nextToken_eq_iff (by decide), sign_iff, significant_of_separators h] at hclose
    exact absurd (by rw [hclose]; rfl) ht
  · rfl

/-- A brace behind separators closes the innermost block, if there is one. -/
theorem step_of_closeBrace (hw : w.ended = true) (h : Skips Walk.isSeparating s ('}' :: r)) :
    w.step limit base s = match w.closeBlock? with
      | some w' => .next w' r
      | none => .done (w.stop base (unexpected ('}' :: r))) := by
  have hsign : Sign .closeBrace ('}' :: r) r := sign_iff.2 (significant_of_separators h)
  unfold Walk.step
  rw [if_pos hw, skips_iff.1 h]
  cases w.closeBlock? with
  | none => simp only [(nextToken_eq_iff (by decide)).2 hsign]
  | some w' => simp only [(nextToken_eq_iff (by decide)).2 hsign]

/-- A brace that closes an open block ends the step there. -/
theorem step_close (hw : w.ended = true) (h : Skips Walk.isSeparating s ('}' :: r))
    (hclose : w.closeBlock? = some w') : w.step limit base s = .next w' r := by
  rw [step_of_closeBrace hw h, hclose]

/-- Where a statement is due, a step takes one. -/
theorem step_statement (hw : w.ended = false) :
    w.step limit base s = w.takeStatement limit base s := by
  simp [Walk.step, hw]

/-- A step takes a statement, where one is due or behind separators, or the end of a block. -/
theorem step_cases (limit base : Nat) (w : Walk) (s : List Char) :
    (w.ended = false ∧ w.step limit base s = w.takeStatement limit base s) ∨
    (w.ended = true ∧ ∃ t, Skips Walk.isSeparating s t ∧ t.head? ≠ some '}' ∧
      w.step limit base s = w.takeStatement limit base t) ∨
    (w.ended = true ∧ ∃ r, Skips Walk.isSeparating s ('}' :: r)) := by
  cases hw : w.ended with
  | false => exact .inl ⟨rfl, step_statement hw⟩
  | true =>
    refine .inr ?_
    -- behind the separators there is a brace, or there is not
    have h : Skips Walk.isSeparating s (s.dropWhile Walk.isSeparating) := skips_iff.2 rfl
    by_cases ht : (s.dropWhile Walk.isSeparating).head? = some '}'
    · obtain ⟨r, hr⟩ := List.head?_eq_some_iff.1 ht
      exact .inr ⟨rfl, r, hr ▸ h⟩
    · exact .inl ⟨rfl, _, h, ht, step_of_separators hw h ht⟩

/-- Runs whose first steps are equal are equal: a run depends on its state and its text only through
them. -/
theorem run_congr (h : w.step limit base s = w'.step limit base t) :
    w.run limit base s = w'.run limit base t := by
  cases h' : w'.step limit base t with
  | next w'' r => rw [Walk.run_of_next (h.trans h'), Walk.run_of_next h']
  | done o => rw [Walk.run_of_done (h.trans h'), Walk.run_of_done h']

/-! ### From derivations to runs -/

/-- The pass behind a block whose remaining statements are `ts`. -/
def closed (base : Nat) (w : Walk) (b : OpenBlock) (outer : List OpenBlock) (ts : List Statement) :
    Walk where
  blocks := outer
  before := ⟨b.name, b.origin, some (w.before.reverse ++ ts)⟩ :: b.before
  visits := (preorder (w.depth base) ts).reverse ++ w.visits
  ended := true

/-- A pass takes the statements `ts` and ends, in no block, with them; in a block it goes on with
`r` behind the block. -/
def Takes (limit base : Nat) (w : Walk) (s : List Char) (ts : List Statement) (r : List Char) :
    Level → Prop
  | .root => w.blocks = [] → w.run limit base s =
      ⟨.ok (w.before.reverse ++ ts), w.visits.reverse ++ preorder (w.depth base) ts, base⟩
  | .block => ∀ b outer, w.blocks = b :: outer →
      w.run limit base s = (closed base w b outer ts).run limit base r

/-- A pass that goes on behind the statement `st` takes it together with what it takes then. -/
theorem Takes.cons {st : Statement} {s' : List Char}
    (hrun : w.run limit base s = w'.run limit base s') (hblocks : w'.blocks = w.blocks)
    (hbefore : w'.before = st :: w.before)
    (hvisits : w'.visits = (preorder (w.depth base) [st]).reverse ++ w.visits)
    (h : Takes limit base w' s' ts r l) : Takes limit base w s (st :: ts) r l := by
  have hdepth : w'.depth base = w.depth base := by rw [Walk.depth, hblocks, Walk.depth]
  have horder : preorder (w.depth base) (st :: ts) =
      preorder (w.depth base) [st] ++ preorder (w.depth base) ts := preorder_append [st] ts _
  cases l with
  | root =>
    intro hw
    rw [hrun, h (hblocks.trans hw), hbefore, hvisits, hdepth, horder]
    simp
  | block =>
    intro b outer hw
    rw [hrun, h b outer (hblocks.trans hw)]
    congr 1
    simp only [closed, hbefore, hvisits, hdepth, horder]
    simp

/-- A pass takes what the grammar derives, where the limit allows its blocks. -/
theorem takes_of_statements (h : Statements l e s ts r) : ∀ w : Walk, w.ended = e →
    w.depth base + nesting ts ≤ limit → Takes limit base w s ts r l := by
  -- on the derivation, for every state that is due to read what it derives
  induction h with
  | finish h =>
    intro w hw _ hblocks
    rw [Walk.run_of_done ((step_statement hw).trans (takeStatement_finish h))]
    simp [Walk.finish, hblocks]
  | close h =>
    intro w hw _ b outer hblocks
    refine Walk.run_of_next (step_close hw h ?_)
    simp [Walk.closeBlock?, hblocks, closed]
  | @separate l s t r ts h hne hts ih =>
    intro w hw hlimit
    -- the separators are skipped in the step that takes the next statement
    have hrun : w.run limit base s = Walk.run limit base { w with ended := false } t := by
      refine run_congr ?_
      rw [step_of_separators hw h hne, step_statement rfl]
      rfl
    have hts := ih { w with ended := false } rfl hlimit
    cases l with
    | root => exact fun hblocks => hrun.trans (hts hblocks)
    | block => exact fun b outer hblocks => hrun.trans (hts b outer hblocks)
  | @block l s t u x r name origin inner ts hhead hb hinner hts ih₁ ih₂ =>
    intro w hw hlimit
    rw [nesting_cons_some] at hlimit
    -- the block is read in the state that it opens, and what follows it in the state behind it
    have hopen : w.takeStatement limit base s =
        .next ((w.visit base name).openBlock name origin) u :=
      takeStatement_block hhead hb (by omega)
    have hblock := ih₁ ((w.visit base name).openBlock name origin) rfl
      (by rw [Walk.depth_openBlock, Walk.depth_visit]; omega) ⟨name, origin, w.before⟩ w.blocks rfl
    refine Takes.cons ((Walk.run_of_next ((step_statement hw).trans hopen)).trans hblock)
      rfl rfl ?_ (ih₂ _ rfl ?_)
    · -- the visits are those of the block's own statement and, one level deeper, of its statements
      simp [closed, Walk.openBlock, Walk.visit, Walk.depth, Nat.add_assoc]
    · have hdepth : (closed base ((w.visit base name).openBlock name origin)
          ⟨name, origin, w.before⟩ w.blocks inner).depth base = w.depth base := rfl
      omega
  | ended hhead he hts ih =>
    intro w hw hlimit
    -- the separator stays where it is, for the next step
    rw [nesting_cons_none] at hlimit
    refine Takes.cons (Walk.run_of_next ((step_statement hw).trans (takeStatement_ended hhead he)))
      rfl rfl ?_ (ih _ rfl hlimit)
    simp [Walk.add, Walk.visit]
  | runOn hhead hr hts ih =>
    intro w hw hlimit
    rw [nesting_cons_none] at hlimit
    refine Takes.cons (Walk.run_of_next ((step_statement hw).trans (takeStatement_runOn hhead hr)))
      rfl rfl ?_ (ih _ rfl hlimit)
    simp [Walk.add, Walk.visit]

/-! ### From runs to derivations -/

/-- What is left of a text completes the blocks that are open, the innermost first, to the
statements `ts` of the document, within the limit. -/
def Completes (limit base : Nat) :
    List OpenBlock → List Statement → Bool → List Char → List Statement → Prop
  | [], before, e, s, ts => ∃ more, Statements .root e s more [] ∧ base + nesting more ≤ limit ∧
      ts = before.reverse ++ more
  | b :: outer, before, e, s, ts => ∃ inner r, Statements .block e s inner r ∧
      base + (outer.length + 1) + nesting inner ≤ limit ∧
      Completes limit base outer (⟨b.name, b.origin, some (before.reverse ++ inner)⟩ :: b.before)
        true r ts

/-- What completes a list behind some statements completes it in front of them, if these statements
can be put in front of every derivation. -/
theorem Completes.prepend {blocks : List OpenBlock} {before : List Statement} {e' : Bool}
    (xs : List Statement)
    (hlimit : base + blocks.length + nesting xs ≤ limit)
    (hs : ∀ l ts r, Statements l e' t ts r → Statements l e s (xs ++ ts) r)
    (h : Completes limit base blocks (xs.reverse ++ before) e' t ts) :
    Completes limit base blocks before e s ts := by
  cases blocks with
  | nil =>
    -- the document goes on behind the statements
    obtain ⟨more, hmore, hle, rfl⟩ := h
    refine ⟨xs ++ more, hs _ _ _ hmore, ?_, by simp⟩
    rw [nesting_append]
    simp only [List.length_nil] at hlimit
    omega
  | cons b outer =>
    -- the innermost block goes on behind the statements
    obtain ⟨inner, r, hinner, hle, h⟩ := h
    refine ⟨xs ++ inner, r, hs _ _ _ hinner, ?_, by simpa using h⟩
    rw [nesting_append]
    simp only [List.length_cons] at hlimit
    omega

/-- What completes a pass behind a statement completes it in front of the statement. -/
theorem completes_of_takeStatement (h : w.takeStatement limit base s = .next w' r)
    (hw : w.depth base ≤ limit) (hc : Completes limit base w'.blocks w'.before w'.ended r ts) :
    Completes limit base w.blocks w.before false s ts := by
  obtain ⟨name, origin, t, hhead, ⟨hb, hlimit, rfl⟩ | ⟨he, rfl, rfl⟩ | ⟨hr, rfl⟩⟩ :=
    of_takeStatement_next h
  · -- the innermost block behind the step becomes the block of this statement
    obtain ⟨inner, x, hinner, hle, hc⟩ := hc
    refine Completes.prepend [⟨name, origin, some inner⟩] ?_
      (fun l ts r hts => .block hhead hb hinner hts) hc
    simp only [nesting_cons_some, nesting_nil, Walk.visit] at hle ⊢
    omega
  · -- the other two ways add one statement with no block to the innermost list
    exact Completes.prepend [⟨name, origin, none⟩] (by simpa [Walk.depth] using hw)
      (fun l ts r hts => .ended hhead he hts) hc
  · exact Completes.prepend [⟨name, origin, none⟩] (by simpa [Walk.depth] using hw)
      (fun l ts r hts => .runOn hhead hr hts) hc

/-- What completes a pass behind a step completes it in front of the step. -/
theorem completes_of_step (h : w.step limit base s = .next w' r) (hw : w.depth base ≤ limit)
    (hc : Completes limit base w'.blocks w'.before w'.ended r ts) :
    Completes limit base w.blocks w.before w.ended s ts := by
  rcases step_cases limit base w s with
    ⟨he, hstep⟩ | ⟨he, t, ht, hne, hstep⟩ | ⟨he, r', hr'⟩
  · rw [he]
    exact completes_of_takeStatement (hstep.symm.trans h) hw hc
  · rw [he]
    -- separators add no statement
    exact Completes.prepend [] (by simpa [Walk.depth] using hw)
      (fun l ts r hts => .separate ht hne hts)
      (completes_of_takeStatement (hstep.symm.trans h) hw hc)
  · -- a block that ends here is completed by no more statements
    rw [step_of_closeBrace he hr'] at h
    unfold Walk.closeBlock? at h
    split at h
    · rename_i w'' hclose
      cases h
      split at hclose
      · cases hclose
      · rename_i b outer hb
        cases hclose
        rw [he, hb]
        refine ⟨[], r, .close hr', ?_, by simpa using hc⟩
        simpa [Walk.depth, hb] using hw
    · cases h

/-- No step opens more blocks than the limit allows. -/
theorem depth_step_le (h : w.step limit base s = .next w' r) (hw : w.depth base ≤ limit) :
    w'.depth base ≤ limit := by
  -- only the opening of a block makes the depth grow, and it asks for the limit
  have htake : ∀ t, w.takeStatement limit base t = .next w' r → w'.depth base ≤ limit := by
    intro t ht
    obtain ⟨name, origin, u, -, ⟨-, hlimit, rfl⟩ | ⟨-, -, rfl⟩ | ⟨-, rfl⟩⟩ :=
      of_takeStatement_next ht
    · rw [Walk.depth_openBlock, Walk.depth_visit]
      exact hlimit
    · exact hw
    · exact hw
  rcases step_cases limit base w s with
    ⟨-, hstep⟩ | ⟨-, t, -, -, hstep⟩ | ⟨he, r', hr'⟩
  · exact htake s (hstep.symm.trans h)
  · exact htake t (hstep.symm.trans h)
  · rw [step_of_closeBrace he hr'] at h
    split at h
    · rename_i w'' hclose
      cases h
      have hdepth : w'.depth base + 1 = w.depth base := Walk.depth_closeBlock? hclose
      omega
    · cases h

/-- A pass ends where a statement is due: at the end of the text, or at a fault in front of the name
of the statement or behind it. -/
theorem takeStatement_done_cases {o : Outcome} (h : w.takeStatement limit base s = .done o) :
    (Skips isSpace s [] ∧ o = w.finish base) ∨ (∃ f, o = w.stop base f) ∨
      ∃ name f, o = (w.visit base name).stop base f := by
  unfold Walk.takeStatement at h
  split at h
  · cases h
    exact .inr (.inl ⟨_, rfl⟩)
  · rename_i name t hname
    split at h
    · rename_i he
      cases h
      rcases value_eq_ok_iff.1 hname with ha | ⟨hs, -, -⟩
      · exact absurd he ha.ne_empty
      · exact .inl ⟨hs, rfl⟩
    · dsimp only at h
      refine .inr (.inr ⟨name, ?_⟩)
      split at h
      · cases h
        exact ⟨_, rfl⟩
      · split at h
        · split at h
          · cases h
          · -- the block is refused
            cases h
            exact ⟨_, rfl⟩
        all_goals cases h

/-- A pass that ends well where a statement is due is at the end of the text, in no block, and its
result is what stands in front of the end. -/
theorem of_takeStatement_done {o : Outcome} (h : w.takeStatement limit base s = .done o)
    (ho : o.result = .ok ts) : Skips isSpace s [] ∧ w.blocks = [] ∧ ts = w.before.reverse := by
  rcases takeStatement_done_cases h with ⟨hs, rfl⟩ | ⟨f, rfl⟩ | ⟨name, f, rfl⟩
  · unfold Walk.finish at ho
    split at ho
    · rename_i hb
      cases ho
      exact ⟨hs, hb, rfl⟩
    · cases ho
  · cases ho
  · cases ho

/-- What is left of the text at any state of a pass that ends well completes the state. -/
theorem completes_of_run (hw : w.depth base ≤ limit) (h : (w.run limit base s).result = .ok ts) :
    Completes limit base w.blocks w.before w.ended s ts := by
  -- backwards along the run, from its end to the state it starts in
  fun_induction Walk.run limit base w s with
  | case1 w s w' r hstep ih =>
    exact completes_of_step hstep hw (ih (depth_step_le hstep hw) h)
  | case2 w s o hdone =>
    -- a pass that ends with statements ends where no statement is left, in no block
    have hfinish : ∀ t, w.takeStatement limit base t = .done o →
        Completes limit base w.blocks w.before false t ts := by
      intro t ht
      obtain ⟨hskip, hblocks, rfl⟩ := of_takeStatement_done ht h
      rw [hblocks]
      exact ⟨[], .finish hskip, by simpa [Walk.depth, hblocks] using hw, by simp⟩
    rcases step_cases limit base w s with
      ⟨he, hstep⟩ | ⟨he, t, ht, hne, hstep⟩ | ⟨he, r', hr'⟩
    · rw [he]
      exact hfinish s (hstep.symm.trans hdone)
    · rw [he]
      exact Completes.prepend [] (by simpa [Walk.depth] using hw)
        (fun l ts r hts => .separate ht hne hts) (hfinish t (hstep.symm.trans hdone))
    · rw [step_of_closeBrace he hr'] at hdone
      -- a brace with no block to close ends the pass with an error
      split at hdone <;> cases hdone
      cases h

/-! ### Parsing -/

/-- A pass over a whole text reads the statements that the grammar derives from it, if the limit
allows their blocks. -/
theorem run_eq_ok_iff (hbase : base ≤ limit) : (Walk.run limit base {} s).result = .ok ts ↔
    Document s ts ∧ base + nesting ts ≤ limit := by
  constructor
  · intro h
    -- in the first state nothing has been read, so the whole text completes it
    obtain ⟨more, hmore, hle, rfl⟩ := completes_of_run hbase h
    exact ⟨hmore, hle⟩
  · rintro ⟨h, hle⟩
    rw [takes_of_statements h {} rfl hle rfl]
    rfl

/-- A parse returns what the pass over the whole text reads. -/
theorem parse_eq_ok_iff_run (source : String) : parse source limit = .ok ts ↔
    (Walk.run limit 0 {} source.toList).result = .ok ts :=
  mapError_eq_ok_iff

/-- What is parsed is derived, and its blocks nest within the limit. -/
theorem document_of_parse {source : String} (h : parse source limit = .ok ts) :
    Document source.toList ts ∧ nesting ts ≤ limit := by
  obtain ⟨hdoc, hle⟩ := (run_eq_ok_iff (Nat.zero_le limit)).1 ((parse_eq_ok_iff_run source).1 h)
  exact ⟨hdoc, by simpa using hle⟩

/-- What is derived is parsed, if its blocks nest within the limit. -/
theorem parse_of_document {source : String} (h : Document source.toList ts)
    (hlimit : nesting ts ≤ limit) : parse source limit = .ok ts := by
  refine (parse_eq_ok_iff_run source).2 ((run_eq_ok_iff (Nat.zero_le limit)).2 ⟨h, ?_⟩)
  simpa using hlimit

/-- **Grammar exactness.** A text is parsed as the statements `ts` if, and only if, the grammar
derives them from it and their blocks nest within the limit. -/
theorem parse_eq_ok_iff_document (source : String) (limit : Nat) (ts : List Statement) :
    parse source limit = .ok ts ↔ Document source.toList ts ∧ nesting ts ≤ limit :=
  ⟨document_of_parse, fun ⟨h, hlimit⟩ => parse_of_document h hlimit⟩

end FieldMapping.Grammar
