import FieldMapping.Proofs.Progress.Descent

/-!
# Passes and the descent

A pass reads a document in steps, with a list of the blocks that are open. Reading by descent keeps
them in the calls that have not come back yet. Both read the same: where a call for a list of
statements comes back, a pass stands at the same place, with the same blocks open around it as
before and the statements of the list read (`agrees_document`). So a parse is a descent whose bound
is never reached.
-/

namespace FieldMapping.Descent

open Text Scan Grammar

variable {limit base n depth : Nat} {inner : List Char → Bounded (List Statement)}
  {w : Walk} {s t u r : List Char} {name : String} {origin : Option Origin}

/-! ### Passes -/

/-- The state of a pass that has read the statements `ts` more, with the same blocks open as in the
state `w`; `e` tells whether the last statement has ended. -/
def behind (w : Walk) (ts : List Statement) (visits : List Visit) (e : Bool) : Walk :=
  { w with before := ts.reverse ++ w.before, visits, ended := e }

/-- A pass that goes on at `s` in the state `w` comes to `r` with the statements `ts` read. -/
def Leads (limit base : Nat) (w : Walk) (s : List Char) (ts : List Statement) (e : Bool)
    (r : List Char) : Prop :=
  ∃ visits, w.run limit base s = (behind w ts visits e).run limit base r

/-- A list of statements ends in front of `r`: nothing is left, or a brace comes next. -/
def EndsList (r : List Char) : Prop :=
  r = [] ∨ ∃ t, Sign .closeBrace r t

/-- An operator that is seen ahead comes next. -/
theorem sign_of_peekToken {o : Operator} (ho : o ≠ .comma) (h : peekToken s = .operator o) :
    ∃ t, Sign o s t :=
  ⟨_, (nextToken_eq_iff ho).1 (Prod.ext ((nextToken_fst s).trans h) rfl)⟩

/-- Blanks at the place of a complaint are not part of it. -/
theorem unexpected_congr (h : significant s = significant t) : unexpected s = unexpected t := by
  unfold unexpected nextToken
  rw [h]

/-- Blanks in front of a plain value do not change it. -/
theorem value_significant (s : List Char) : value (significant s) = value s := by
  obtain ⟨blanks, hs, hblanks, -⟩ := dropWhile_eq_iff.1 (rfl : significant s = _)
  have htrim : trimStart s = trimStart (significant s) :=
    (congrArg trimStart hs).trans (trimStart_append fun c hc => isSpace_of_isBlank (hblanks c hc))
  unfold value
  rw [htrim]

/-- Blanks in front of a brace are separators to a pass. -/
theorem skips_of_sign (h : Sign .closeBrace s t) : Skips Walk.isSeparating s ('}' :: t) := by
  obtain ⟨blanks, hs, hblanks, -⟩ := h
  refine ⟨blanks, hs, fun c hc => isSeparating_of_isSpace (isSpace_of_isBlank (hblanks c hc)), ?_⟩
  rintro c ⟨⟩
  rfl

/-- At the end of the text a pass ends, whether a statement has just ended or not. -/
theorem run_nil (limit base : Nat) (w : Walk) : w.run limit base [] = w.finish base := by
  have hfinish : w.takeStatement limit base [] = .done (w.finish base) :=
    takeStatement_finish (skips_iff.2 rfl)
  refine Walk.run_of_done (Eq.trans ?_ hfinish)
  cases hw : w.ended with
  | false => exact step_statement hw
  | true => exact step_of_separators hw (skips_iff.2 rfl) (by simp)

/-- Behind the end of a statement a pass skips what `skipSeparators` does, and looks for the end of
the list. -/
theorem leads_skipSeparators (hw : w.ended = true) : Leads limit base w s []
    (peekToken (skipSeparators s) = .operator .closeBrace) (skipSeparators s) := by
  have hskip : Skips Walk.isSeparating s (significant (skipSeparators s)) :=
    skips_iff.2 (significant_skipSeparators s).symm
  refine ⟨w.visits, run_congr ?_⟩
  by_cases hclose : peekToken (skipSeparators s) = .operator .closeBrace
  · -- either way the pass closes the block at this brace
    obtain ⟨t, ht⟩ := sign_of_peekToken (by decide) hclose
    rw [sign_iff.1 ht] at hskip
    rw [step_of_closeBrace hw hskip, step_of_closeBrace (decide_eq_true hclose) (skips_of_sign ht)]
    obtain ⟨blocks, before, visits, ended⟩ := w
    cases hw
    simp only [hclose, decide_true]
    rfl
  · -- either way the pass takes a statement here
    have hne : (significant (skipSeparators s)).head? ≠ some '}' := by
      intro hhead
      obtain ⟨t, ht⟩ := List.head?_eq_some_iff.1 hhead
      exact hclose (by rw [peekToken, ht]; rfl)
    rw [step_of_separators hw hskip hne, step_statement (decide_eq_false hclose)]
    unfold Walk.takeStatement
    rw [value_significant]
    rfl

/-! ### Agreement -/

/-- A pass agrees with what a call for one statement gives. -/
def Agrees (limit base : Nat) (w : Walk) (s : List Char) :
    Except Fault (Taken × List Char) → Prop
  | .ok (taken, r) => (taken.ended = true → EndsList r) ∧
      Leads limit base w s taken.statement.toList taken.ended r
  | .error f => (w.run limit base s).result = .error f

/-- A pass agrees with what a call for a list of statements gives. -/
def AgreesList (limit base : Nat) (w : Walk) (s : List Char) :
    Except Fault (List Statement × List Char) → Prop
  | .ok (ts, r) => EndsList r ∧ Leads limit base w s ts true r
  | .error f => (w.run limit base s).result = .error f

/-- Every pass that takes a statement next, with `depth` blocks open, agrees with what the calls of
`read` give. -/
def AgreesAt (limit base depth : Nat) (read : List Char → Bounded (List Statement)) : Prop :=
  ∀ (w : Walk) s x, w.ended = false → w.depth base = depth → read s = some x →
    AgreesList limit base w s x

/-- A statement that has been read ends, or the list does, behind the separators. -/
theorem agrees_endStatement {st : Statement} (h : Leads limit base w s [st] true t) :
    Agrees limit base w s (.ok (endStatement st t)) := by
  obtain ⟨visits, h⟩ := h
  refine ⟨fun he => .inr (sign_of_peekToken (by decide) (of_decide_eq_true he)), ?_⟩
  obtain ⟨visits', hrun⟩ : Leads limit base (behind w [st] visits true) t [] _ _ :=
    leads_skipSeparators rfl
  exact ⟨visits', h.trans hrun⟩

/-- A block that is read by descent is read by a pass, and is then the block of its statement. -/
theorem agrees_block {x : Except Fault (Taken × List Char)} (hw : w.ended = false)
    (hhead : Head s name origin t) (hb : Sign .openBrace t u)
    (hinner : AgreesAt limit base (w.depth base + 1) inner)
    (h : statement limit inner (w.depth base) s = some x) : Agrees limit base w s x := by
  rw [statement_block hhead hb, block] at h
  by_cases hlimit : w.depth base < limit
  · have hopen : w.run limit base s =
        ((w.visit base name).openBlock name origin).run limit base u :=
      Walk.run_of_next ((step_statement hw).trans (takeStatement_block hhead hb hlimit))
    rw [if_pos hlimit, andThen_assoc] at h
    -- the statements of the block break off, or the list ends in front of `r`
    rcases andThen_eq_some_iff.1 h with ⟨f, hf, rfl⟩ | ⟨ts, r, hts, h⟩
    · exact (congrArg Outcome.result hopen).trans (hinner _ u _ rfl rfl hf)
    · obtain ⟨rfl | ⟨v, hv⟩, visits, hrun⟩ :=
        hinner ((w.visit base name).openBlock name origin) u _ rfl rfl hts
      · -- the brace that closes the block is missing
        cases h
        show (w.run limit base s).result = _
        rw [hopen, hrun, run_nil]
        rfl
      · have hclose : closeBlock ts r = some (.ok (ts, v)) := by
          rw [closeBlock, (nextToken_eq_iff (by decide)).2 hv]
        rw [hclose] at h
        obtain rfl := Option.some.inj h
        refine agrees_endStatement ⟨visits, (hopen.trans hrun).trans ?_⟩
        refine Walk.run_of_next (step_close rfl (skips_of_sign hv) ?_)
        simp [Walk.closeBlock?, Walk.openBlock, Walk.visit, behind]
  · have hdeep : w.takeStatement limit base s =
        .done ((w.visit base name).stop base (.here (.tooDeep limit) u)) :=
      takeStatement_tooDeep hhead hb (by omega)
    rw [if_neg hlimit] at h
    cases h
    show (w.run limit base s).result = _
    rw [Walk.run_of_done ((step_statement hw).trans hdeep)]
    rfl

/-- A pass agrees with a call for one statement if it agrees with the calls for blocks. -/
theorem agrees_statement {x : Except Fault (Taken × List Char)} (hw : w.ended = false)
    (hinner : AgreesAt limit base (w.depth base + 1) inner)
    (h : statement limit inner (w.depth base) s = some x) : Agrees limit base w s x := by
  rcases fault_or_finish_or_head s with ⟨f, hf, hstops⟩ | hs | ⟨name, origin, t, hhead⟩
  · obtain ⟨o, ho, hresult⟩ := hstops limit base w
    obtain rfl := Option.some.inj ((hf limit inner (w.depth base)).symm.trans h)
    show (w.run limit base s).result = _
    rw [Walk.run_of_done ((step_statement hw).trans ho), hresult]
  · obtain rfl := Option.some.inj ((statement_finish hs).symm.trans h)
    refine ⟨fun _ => .inl rfl, w.visits, ?_⟩
    rw [Walk.run_of_done ((step_statement hw).trans (takeStatement_finish hs)), run_nil]
    rfl
  · rcases behind_cases t with ⟨u, hb⟩ | he | ⟨u, hr⟩
    · exact agrees_block hw hhead hb hinner h
    · obtain rfl := Option.some.inj ((statement_ended hhead he).symm.trans h)
      exact agrees_endStatement
        ⟨_, Walk.run_of_next ((step_statement hw).trans (takeStatement_ended hhead he))⟩
    · obtain rfl := Option.some.inj ((statement_runOn hhead hr).symm.trans h)
      exact ⟨nofun, _, Walk.run_of_next ((step_statement hw).trans (takeStatement_runOn hhead hr))⟩

/-- Passes agree with the calls that read a list by descent, whatever the bound. -/
theorem agrees_document (limit base n depth : Nat) :
    AgreesAt limit base depth (document limit n depth) := by
  -- along the bound, for all depths at once: a block is read one deeper, what follows it is not
  induction n generalizing depth with
  | zero => exact fun _ _ _ _ _ h => nomatch h
  | succ n ih =>
    rintro w s x hw rfl h
    unfold document at h
    rcases andThen_eq_some_iff.1 h with ⟨f, hf, rfl⟩ | ⟨taken, t, ht, h⟩
    · exact agrees_statement hw (ih _) hf
    · obtain ⟨hend, visits, hrun⟩ := agrees_statement hw (ih _) ht
      split at h
      · rename_i he
        cases h
        rw [he] at hrun
        exact ⟨hend he, visits, hrun⟩
      · rename_i he
        have he : taken.ended = false := by simpa using he
        -- the next round, in the state behind the statement
        have hnext := ih (w.depth base) (behind w taken.statement.toList visits taken.ended) t
        rcases andThen_eq_some_iff.1 h with ⟨f, hf, rfl⟩ | ⟨ts, r, hr, h⟩
        · exact (congrArg Outcome.result hrun).trans (hnext _ he rfl hf)
        · cases h
          obtain ⟨hend', visits', hrun'⟩ := hnext _ he rfl hr
          refine ⟨hend', visits', (hrun.trans hrun').trans ?_⟩
          simp only [behind, List.reverse_append, List.append_assoc]

/-- A whole text is read by descent as it is read in a pass. -/
theorem result_run_of_parse {x : Except Fault (List Statement)}
    (h : parse limit n depth s = some x) : (Walk.run limit depth {} s).result = x := by
  obtain ⟨y, hy, rfl⟩ := Option.map_eq_some_iff.1 h
  have hagrees : AgreesList limit depth {} s y :=
    agrees_document limit depth n depth {} s y rfl rfl hy
  cases y with
  | error f => exact hagrees
  | ok p =>
    obtain ⟨ts, r⟩ := p
    obtain ⟨hend, visits, hrun⟩ := hagrees
    rw [hrun]
    -- the list ends at the end of the text, or in front of a brace
    rcases hend with rfl | ⟨t, ht⟩
    · rw [run_nil]
      show Except.ok (ts.reverse ++ []).reverse = .ok ts
      rw [List.append_nil, List.reverse_reverse]
    · -- a brace that closes no block
      have hclose : nextToken r = (.operator .closeBrace, t) := (nextToken_eq_iff (by decide)).2 ht
      have hfault : unexpected r = unexpected ('}' :: t) := unexpected_congr (sign_iff.1 ht)
      rw [Walk.run_of_done (step_of_closeBrace rfl (skips_of_sign ht))]
      show _ = Except.bind (.ok (ts, r)) _
      simp only [Except.bind, hclose, hfault]
      rfl

end FieldMapping.Descent
