import FieldMapping.Proofs.Fault.Place
import FieldMapping.Proofs.Session.Depth
import FieldMapping.Proofs.Session.Leaving

/-!
# Resuming a parse

A session that has stopped goes on with what is unread, in the blocks that are open. Its next parse
is a parse of what is unread as a text of its own, with as many blocks less to open as are open
already (`resume_eq_parse_rest`): it returns the same statements, or the same error at a place that
counts from the start of the whole text.

A pass within blocks that are open does what a pass in none does, and counts the blocks around it
on top (`Walk.run_shift`). The one cause that names a number of blocks names the limit of the
session instead (`Cause.withLimit`).
-/

namespace FieldMapping

open Text Scan Grammar

variable {limit base : Nat} {w : Walk} {s : List Char}

/-! ### Shifted passes -/

/-- The cause, with its own limit if it names one. -/
def Cause.withLimit (limit : Nat) : Cause → Cause
  | .tooDeep _ => .tooDeep limit
  | cause => cause

/-- The fault, with its own limit if its cause names one. -/
def Fault.withLimit (limit : Nat) (f : Fault) : Fault :=
  { f with cause := f.cause.withLimit limit }

/-- Only blocks are too deep: a statement that is broken at its start is so for another reason. -/
theorem Fault.withLimit_of_broken {f : Fault} (h : Head.Broken s f.cause f.place) :
    f.withLimit limit = f := by
  have hne : ∀ n, f.cause ≠ .tooDeep n := by
    intro n hn
    -- the cause holds of the text whatever the limit is
    obtain ⟨v, -, hholds⟩ : HoldsBehind (n + 1) [] s f.cause f.place := h.holds
    rw [hn] at hholds
    exact absurd hholds.1 (by omega)
  obtain ⟨cause, place, rest⟩ := f
  cases cause with
  | tooDeep n => exact absurd rfl (hne n)
  | _ => rfl

/-- The statement met within `base` more blocks. -/
def Visit.shift (base : Nat) (v : Visit) : Visit :=
  { v with depth := base + v.depth }

/-- The state of the same pass within `base` more blocks. -/
def Walk.shift (base : Nat) (w : Walk) : Walk :=
  { w with visits := w.visits.map (Visit.shift base) }

/-- The end of the same pass within `base` more blocks, where `limit` blocks may be open. -/
def Outcome.shift (limit base : Nat) (o : Outcome) : Outcome where
  result := o.result.mapError (Fault.withLimit limit)
  visits := o.visits.map (Visit.shift base)
  depth := base + o.depth

/-- The step of the same pass within `base` more blocks, where `limit` blocks may be open. -/
def Step.shift (limit base : Nat) : Step → Step
  | .next w r => .next (w.shift base) r
  | .done o => .done (o.shift limit base)

namespace Walk

/-- A statement is met within more blocks as it is met in none, only deeper. -/
theorem shift_visit (name : String) :
    (w.visit 0 name).shift base = (w.shift base).visit base name := by
  simp [shift, visit, depth, Visit.shift]

/-- A failure ends a pass within more blocks as it does in none, with the limit of the session. -/
theorem shift_stop (f : Fault) :
    (w.stop 0 f).shift limit base = (w.shift base).stop base (f.withLimit limit) := by
  simp [Outcome.shift, stop, shift, depth, Except.mapError]

/-- The end of the text ends a pass within more blocks as it does in none. -/
theorem shift_finish : (w.finish 0).shift limit base = (w.shift base).finish base := by
  unfold finish shift
  cases w.blocks with
  | nil => simp [Outcome.shift, Except.mapError]
  | cons b outer =>
    simp only [Outcome.shift, Except.mapError, List.map_reverse, Nat.zero_add]
    rfl

/-- A brace closes the blocks of the pass, and none of those around it. -/
theorem shift_closeBlock? : (w.shift base).closeBlock? = w.closeBlock?.map (shift base) := by
  unfold closeBlock? shift
  cases w.blocks <;> rfl

/-- A statement is taken within more blocks as it is in none, where as many blocks less may be
opened. -/
theorem takeStatement_shift (s : List Char) : (w.shift base).takeStatement limit base s =
    (w.takeStatement (limit - base) 0 s).shift limit base := by
  unfold takeStatement
  cases hname : value s with
  | error f =>
    have hbroken : Head.Broken s f.cause f.place := by
      obtain ⟨h, hr⟩ := fails_value_iff.1 ⟨f.rest, hname⟩
      exact .name h hr
    dsimp only [Step.shift]
    rw [shift_stop, Fault.withLimit_of_broken hbroken]
  | ok p =>
    obtain ⟨name, r⟩ := p
    dsimp only
    split <;> rename_i hempty
    · rw [Step.shift, shift_finish]
    · cases horigin : Origin.readOptional r with
      | error f =>
        have hbroken : Head.Broken s f.cause f.place := by
          obtain ⟨t, ht, h⟩ := fails_readOptional_iff.1 ⟨f.rest, horigin⟩
          rcases value_eq_ok_iff.1 hname with ha | ⟨-, rfl, -⟩
          · exact .origin ha ht h
          · exact absurd rfl hempty
        dsimp only [Step.shift]
        rw [shift_stop, Fault.withLimit_of_broken hbroken, shift_visit]
      | ok q =>
        obtain ⟨origin, t⟩ := q
        have hdepth : ((w.visit 0 name).shift base).depth base < limit ↔
            (w.visit 0 name).depth 0 < limit - base := by
          simp only [depth, shift]
          omega
        dsimp only
        rw [← shift_visit]
        -- what comes next behind the head decides, in both in the same way
        cases nextToken t with
        | mk token u =>
          cases token with
          | operator o =>
            cases o with
            | openBrace =>
              dsimp only
              by_cases hlimit : (w.visit 0 name).depth 0 < limit - base
              · rw [if_pos (hdepth.2 hlimit), if_pos hlimit]
                rfl
              · rw [if_neg (mt hdepth.1 hlimit), if_neg hlimit, Step.shift, shift_stop]
                rfl
            | _ => rfl
          | _ => rfl

/-- A step within more blocks does what it does in none. -/
theorem step_shift (s : List Char) : (w.shift base).step limit base s =
    (w.step (limit - base) 0 s).shift limit base := by
  unfold step
  split
  · -- the blocks that count are those of the pass itself: a brace closes none of the others
    rename_i he
    rw [if_pos (show w.ended = true from he)]
    dsimp only
    rw [shift_closeBlock?, takeStatement_shift]
    split
    · cases hclose : w.closeBlock? with
      | none =>
        rw [Option.map_none, Step.shift, shift_stop]
        rfl
      | some w' => rfl
    · rfl
  · rename_i he
    rw [if_neg (show ¬w.ended = true from he), takeStatement_shift]

/-- A pass within blocks that are open does what a pass in none does, and counts them on top. -/
theorem run_shift (limit base : Nat) (w : Walk) (s : List Char) :
    (w.shift base).run limit base s = (w.run (limit - base) 0 s).shift limit base := by
  -- along the run in no block, whose steps are those of the run in the blocks
  fun_induction Walk.run (limit - base) 0 w s with
  | case1 w s w' r h ih =>
    have hstep : (w.shift base).step limit base s = .next (w'.shift base) r := by
      rw [step_shift, h, Step.shift]
    rw [run_of_next hstep, ih]
  | case2 w s o h =>
    have hstep : (w.shift base).step limit base s = .done (o.shift limit base) := by
      rw [step_shift, h, Step.shift]
    exact run_of_done hstep

/-! ### The number of open blocks -/

/-- The end of the text leaves no more blocks open than there were. -/
theorem depth_finish_le : (w.finish base).depth ≤ w.depth base := by
  unfold finish depth
  split <;> rename_i h
  · exact Nat.le_add_right _ _
  · rw [h, List.length_cons]
    show base + _ ≤ _
    omega

/-- A pass that ends at a statement leaves no more blocks open than there were. -/
theorem depth_of_takeStatement_done {o : Outcome} (h : w.takeStatement limit base s = .done o) :
    o.depth ≤ w.depth base := by
  rcases takeStatement_done_cases h with ⟨-, rfl⟩ | ⟨f, rfl⟩ | ⟨name, f, rfl⟩
  · exact depth_finish_le
  · exact le_rfl
  · exact le_rfl

/-- A step that ends the pass leaves no more blocks open than there were. -/
theorem depth_of_step_done {o : Outcome} (h : w.step limit base s = .done o) :
    o.depth ≤ w.depth base := by
  rcases step_cases limit base w s with ⟨-, hs⟩ | ⟨-, t, -, -, hs⟩ | ⟨he, r, hr⟩
  · exact depth_of_takeStatement_done (hs.symm.trans h)
  · exact depth_of_takeStatement_done (hs.symm.trans h)
  · rw [step_of_closeBrace he hr] at h
    split at h
    · cases h
    · cases h
      exact le_rfl

/-- A pass leaves no more blocks open than the limit allows. -/
theorem depth_run_le (h : w.depth base ≤ limit) : (w.run limit base s).depth ≤ limit := by
  -- along the run: no step opens more blocks than may be open
  fun_induction Walk.run limit base w s with
  | case1 w s w' r hstep ih => exact ih (depth_step_le hstep h)
  | case2 w s o hstep => exact (depth_of_step_done hstep).trans h

end Walk

/-! ### Sessions -/

namespace Session

/-- The sessions on `source` that blocks may nest `limit` deep in: they start where some acts have
moved a cursor, and go on behind a parse. -/
inductive Reached (source : String) (limit : Nat) : Session → Prop
  | start (acts : List Cursor.Act) :
      Reached source limit (.ofCursor (acts.foldl Cursor.move (.start source)) limit)
  | next {s : Session} (h : Reached source limit s) : Reached source limit s.next

/-- What holds of a session from its start on. -/
structure Within (source : String) (limit : Nat) (s : Session) : Prop where
  source_eq : s.source = source.toList
  limit_eq : s.limit = limit
  suffix : s.rest <:+ source.toList
  depth_le : s.depth ≤ limit

variable {source : String} {s : Session}

/-- What holds at the start of a session holds as far as it goes. -/
theorem Reached.within (h : Reached source limit s) : Within source limit s := by
  -- on the way to the session: acts of the cursor, and then parses
  induction h with
  | start acts =>
    obtain ⟨hsource, hrest⟩ := (Cursor.start source).foldl_move acts
    exact ⟨hsource, rfl, hrest, Nat.zero_le limit⟩
  | @next s h ih =>
    have hdepth : s.outcome.depth ≤ s.limit := Walk.depth_run_le (ih.limit_eq ▸ ih.depth_le)
    exact ⟨ih.source_eq, ih.limit_eq, s.suffix_rest_next.trans ih.suffix, ih.limit_eq ▸ hdepth⟩

/-- The session that reads what is unread as a text of its own. -/
def fresh (s : Session) : Session :=
  .start (String.ofList s.rest) (s.limit - s.depth)

/-- The next parse is the one of what is unread as a text of its own, within the blocks that are
open. -/
theorem outcome_eq_shift (s : Session) : s.outcome = s.fresh.outcome.shift s.limit s.depth := by
  have h := Walk.run_shift s.limit s.depth {} s.rest
  rw [outcome, fresh, start, outcome, String.toList_ofList]
  exact h

/-- It returns the same statements. -/
theorem result_eq_ok_iff {ts : List Statement} :
    s.result = .ok ts ↔ parse (String.ofList s.rest) (s.limit - s.depth) = .ok ts := by
  change s.outcome.result.mapError _ = _ ↔ s.fresh.outcome.result.mapError _ = _
  rw [outcome_eq_shift, Outcome.shift, mapError_eq_ok_iff, mapError_eq_ok_iff, mapError_eq_ok_iff]

/-- A parse that succeeds leaves as many blocks open as were open before it. -/
theorem depth_next_of_ok {ts : List Statement} (hs : s.depth ≤ s.limit) (h : s.result = .ok ts) :
    s.next.depth = s.depth := by
  have hrun : (Walk.run s.limit s.depth {} s.rest).result = .ok ts := mapError_eq_ok_iff.1 h
  obtain ⟨hdoc, hle⟩ := (run_eq_ok_iff hs).1 hrun
  change (Walk.run s.limit s.depth {} s.rest).depth = s.depth
  -- every block of a text that fits is closed within it
  rw [takes_of_statements hdoc {} rfl hle rfl]

/-- Where nothing is unread, a parse returns no statements and changes nothing. -/
theorem result_of_rest_nil (h : s.rest = []) : s.result = .ok [] ∧ s.next = s := by
  have hrun : s.outcome = Walk.finish s.depth {} := by
    rw [outcome, h]
    exact Walk.run_of_done rfl
  obtain ⟨source, rest, limit, depth⟩ := s
  subst h
  constructor
  · rw [result, hrun]
    rfl
  · rw [next, hrun]
    rfl

/-- Where nothing is unread, no later parse returns any statements. -/
theorem results_of_rest_nil (h : s.rest = []) (n : Nat) : ∀ r ∈ s.results n, r = .ok [] := by
  induction n with
  | zero => exact fun r hr => nomatch hr
  | succ n ih =>
    obtain ⟨hresult, hnext⟩ := result_of_rest_nil h
    intro r hr
    rw [results_succ, hnext, List.mem_cons] at hr
    rcases hr with rfl | hr
    · exact hresult
    · exact ih r hr

/-- Where the parse of what is unread fails, the session fails at the same place, and the blocks
open there are open for its next parse. -/
theorem result_of_parse_eq_error {taken : List Char} {e : SyntaxError}
    (hsource : s.source = taken ++ s.rest)
    (h : parse (String.ofList s.rest) (s.limit - s.depth) = .error e) :
    s.result = .error (.ofOffset (e.cause.withLimit s.limit) s.source
      (byteSize taken + e.offset)) ∧
    ∃ before after k, s.rest = before ++ after ∧ e.offset = byteSize before ∧
      s.next.depth = s.depth + k ∧
      ∀ n, BreaksIn (s.limit - s.depth) s.rest e.cause after n ↔ n = k := by
  have hfresh : s.fresh.outcome = Walk.run (s.limit - s.depth) 0 {} s.rest := by
    rw [fresh, start, outcome, String.toList_ofList]
  change s.fresh.outcome.result.mapError (·.locate s.fresh.source) = _ at h
  rw [hfresh, mapError_eq_error_iff] at h
  obtain ⟨⟨cause, place, rest⟩, hf, rfl⟩ := h
  have hfails : Fails (Walk.run (s.limit - s.depth) 0 {} s.rest).result cause place := ⟨rest, hf⟩
  obtain ⟨before, hbefore⟩ := (fails_run_iff.1 hfails).suffix
  have hrest : s.fresh.source = before ++ place := String.toList_ofList.trans hbefore.symm
  have hdepth : s.next.depth = s.depth + (Walk.run (s.limit - s.depth) 0 {} s.rest).depth := by
    rw [next, outcome_eq_shift, hfresh, Outcome.shift]
  -- the place of the error is behind what has been taken and what stands before it in the rest
  rw [hrest, Fault.locate_append]
  refine ⟨?_, before, place, _, hbefore.symm, offset_ofOffset_append .., hdepth, fun n => ?_⟩
  · change s.outcome.result.mapError _ = _
    rw [outcome_eq_shift, hfresh, Outcome.shift, hf, offset_ofOffset_append, hsource, ← hbefore,
      ← List.append_assoc, ← byteSize_append]
    exact congrArg Except.error (Fault.locate_append ..)
  · rw [eq_comm]
    exact (depth_run_eq_iff hfails).symm

end Session

/-- **Resuming a parse.** Wherever a session stands, its next parse is the parse of what is unread
within the blocks that are open. It returns the same statements, and nothing is left then; or it
returns the same error, at a place that counts from the start of the source, and the blocks open at
that place stay open. -/
theorem resume_eq_parse_rest {source : String} {limit : Nat} {s : Session}
    (h : s.Reached source limit) : ∃ taken, source.toList = taken ++ s.rest ∧ s.depth ≤ limit ∧
    (∀ ts, s.result = .ok ts ↔ parse (String.ofList s.rest) (limit - s.depth) = .ok ts) ∧
    (∀ ts, s.result = .ok ts → s.next.rest = [] ∧ s.next.depth = s.depth ∧
      ∀ n, ∀ r ∈ s.next.results n, r = .ok []) ∧
    ∀ e, parse (String.ofList s.rest) (limit - s.depth) = .error e →
      s.result = .error (.ofOffset (e.cause.withLimit limit) source.toList
        (byteSize taken + e.offset)) ∧
      s.next.rest <:+ s.rest ∧
      ∃ before after k, s.rest = before ++ after ∧ e.offset = byteSize before ∧
        s.next.depth = s.depth + k ∧
        ∀ n, BreaksIn (limit - s.depth) s.rest e.cause after n ↔ n = k := by
  obtain ⟨hsource, rfl, ⟨taken, htaken⟩, hdepth⟩ := Session.Reached.within h
  refine ⟨taken, htaken.symm, hdepth, fun ts => Session.result_eq_ok_iff, ?_, ?_⟩
  · intro ts hok
    have hrest : s.next.rest = [] := Session.rest_next_of_ok hok
    exact ⟨hrest, Session.depth_next_of_ok hdepth hok, Session.results_of_rest_nil hrest⟩
  · intro e he
    obtain ⟨hresult, hopen⟩ := Session.result_of_parse_eq_error (hsource.trans htaken.symm) he
    exact ⟨hsource ▸ hresult, s.suffix_rest_next, hopen⟩

/-- Behind a name and a comma, a first parse stops within a block at a stray parenthesis. The next
one goes on in that block, where another one would lie too deep. -/
theorem resume_behind_stray_paren : ∃ s taken e,
    Session.Reached "x,n\x7ba:T) b\x7bc,\x7d" 1 s ∧ s.depth = 1 ∧
    "x,n\x7ba:T) b\x7bc,\x7d".toList = taken ++ s.rest ∧
    parse (String.ofList s.rest) (1 - s.depth) = .error e ∧ e.cause = .tooDeep 0 ∧
    s.result = .error (.ofOffset (.tooDeep 1) "x,n\x7ba:T) b\x7bc,\x7d".toList
      (byteSize taken + e.offset)) := by
  have hsession : (Session.ofCursor ([Cursor.Act.value, .nextToken].foldl Cursor.move
      (.start "x,n\x7ba:T) b\x7bc,\x7d")) 1).next =
      ⟨"x,n\x7ba:T) b\x7bc,\x7d".toList, " b\x7bc,\x7d".toList, 1, 1⟩ := by decide +kernel
  have hreached : Session.Reached "x,n\x7ba:T) b\x7bc,\x7d" 1 _ :=
    .next (.start [.value, .nextToken])
  rw [hsession] at hreached
  obtain ⟨taken, hsource, -, -, -, herror⟩ := resume_eq_parse_rest hreached
  have he : parse (String.ofList " b\x7bc,\x7d".toList) (1 - 1) =
      .error (.ofOffset (.tooDeep 0) " b\x7bc,\x7d".toList 3) := by decide +kernel
  exact ⟨_, taken, _, hreached, rfl, hsource, he, rfl, (herror _ he).1⟩

end FieldMapping
