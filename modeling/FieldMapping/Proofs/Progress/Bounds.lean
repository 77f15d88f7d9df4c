import FieldMapping.Proofs.Progress.Agreement

/-!
# How long a parse can take

Wherever a parse stands and whatever is still unread, it gets on and ends (`Session.Progress`). A
call for one statement that does not end its list takes something, and so does every round of a
list, or of the separators behind a statement, that another round follows. So one round more than
there are bytes left is enough for every call of the descent and for every list in it.

It is enough for a pass as well, which counts its steps in all blocks together, and a parse gives
what the descent gives within that bound (`progress_and_parseWithin_eq_parse`).
-/

namespace FieldMapping

open Text Scan Descent

/-! ### Bounded steps and parses -/

/-- Every step that another one follows takes something. -/
theorem advances_of_step {limit base : Nat} {w w' : Walk} {s r : List Char}
    (h : w.step limit base s = .next w' r) : Advances s r := by
  have hsuffix : (w.step limit base s).rest <:+ s := suffix_step s
  rw [h] at hsuffix
  exact advances_iff.2 ⟨hsuffix, Walk.length_step_lt h⟩

/-- A pass in at most `n` steps, those within blocks included. -/
def Walk.runWithin (limit base : Nat) : Nat → Walk → List Char → Option Outcome
  | 0, _, _ => none
  | n + 1, w, s =>
    match w.step limit base s with
    | .next w r => runWithin limit base n w r
    | .done o => some o

/-- More steps than there are bytes are enough for a pass. -/
theorem Walk.runWithin_eq {limit base n : Nat} {w : Walk} {s : List Char} (h : byteSize s < n) :
    runWithin limit base n w s = some (w.run limit base s) := by
  induction n generalizing w s with
  | zero => exact absurd h (Nat.not_lt_zero _)
  | succ n ih =>
    unfold runWithin
    split <;> rename_i hstep
    · -- another step follows, with fewer bytes left
      have hlt := (advances_of_step hstep).byteSize_lt
      rw [run_of_next hstep, ih (by omega)]
    · rw [run_of_done hstep]

/-- What the next parse of a session returns, read by descent in at most `n` rounds. -/
def Session.resultWithin (n : Nat) (s : Session) : Option (Except SyntaxError (List Statement)) :=
  (Descent.parse s.limit n s.depth s.rest).map (·.mapError (·.locate s.source))

/-- More rounds than there are bytes are enough for a parse. -/
theorem Session.resultWithin_eq {n : Nat} {s : Session} (h : byteSize s.rest < n) :
    s.resultWithin n = some s.result := by
  have hsome : (document s.limit n s.depth s.rest).isSome = true := document_isSome h
  -- the descent gives something, and it is what the pass gives
  obtain ⟨x, hx⟩ := Option.isSome_iff_exists.1 hsome
  have hparse : Descent.parse s.limit n s.depth s.rest = some _ := congrArg (Option.map _) hx
  have hresult : s.outcome.result = _ := result_run_of_parse hparse
  rw [resultWithin, hparse, Session.result, hresult]
  rfl

/-- The statements of `source`, or why it is no field mapping, read by descent in at most `n`
rounds. -/
def parseWithin (n : Nat) (source : String) (limit : Nat := defaultLimit) :
    Option (Except SyntaxError (List Statement)) :=
  (Session.start source limit).resultWithin n

/-! ### Progress -/

/-- Every bound above the number of bytes of `s` is enough for `call` to give `x`. -/
def Suffices {β : Type} (s : List Char) (call : Nat → Option β) (x : β) : Prop :=
  ∀ n, byteSize s < n → call n = some x

/-- Reading gets on where a session stands, and it ends: what is unread may be anything. -/
structure Session.Progress (s : Session) : Prop where
  /-- A call for one statement that does not end its list takes something. -/
  statement_advances : ∀ n taken r,
    statement s.limit (document s.limit n (s.depth + 1)) s.depth s.rest = some (.ok (taken, r)) →
      taken.ended = false → Advances s.rest r
  /-- So does every round of a list that another round follows. -/
  param_advances : ∀ p r, Param.readItem s.rest = .ok ((p, true), r) → Advances s.rest r
  processor_advances : ∀ p r, Processor.readItem s.rest = .ok ((p, true), r) → Advances s.rest r
  arg_advances : ∀ v r, Processor.readArg s.rest = .ok ((v, true), r) → Advances s.rest r
  /-- A round of an argument list may as well be counted from its comma on. -/
  comma_advances : ∀ t v r, itemEnd s.rest = .ok (true, t) → Value.read t = .ok (v, r) →
    Advances s.rest r
  separator_advances : (peekToken s.rest).isSeparator = true →
    Advances s.rest (nextToken s.rest).2
  /-- A call for one statement rests on calls for lists with fewer bytes left. -/
  calls_advance : ∀ inner inner', (∀ t, Advances s.rest t → inner t = inner' t) →
    statement s.limit inner s.depth s.rest = statement s.limit inner' s.depth s.rest
  /-- One round more than there are bytes left is enough for a list or a run of separators. -/
  params_end : Suffices s.rest (Param.item.readWithin · s.rest) (Param.item.readAll s.rest)
  processors_end : Suffices s.rest (Processor.item.readWithin · s.rest)
    (Processor.item.readAll s.rest)
  args_end : Suffices s.rest (Processor.arg.readWithin · s.rest) (Processor.arg.readAll s.rest)
  separators_end : Suffices s.rest (skipWithin · s.rest) (skipSeparators s.rest)
  /-- It is enough for the calls of the descent: every one of them gives an answer. -/
  document_ends : ∃ x, Suffices s.rest (document s.limit · s.depth s.rest) x
  block_ends : ∃ x, Suffices s.rest
    (fun n => block s.limit (document s.limit n (s.depth + 1)) s.depth s.rest) x
  statement_ends : ∃ x, Suffices s.rest
    (fun n => statement s.limit (document s.limit n (s.depth + 1)) s.depth s.rest) x
  /-- It is enough for a pass, which counts the steps in all blocks together, and what a parse
  returns is what is read by descent. -/
  pass_ends : Suffices s.rest (Walk.runWithin s.limit s.depth · {} s.rest) s.outcome
  parse_ends : Suffices s.rest s.resultWithin s.result

/-- Above the number of bytes, every bound is enough for a list. -/
theorem suffices_readWithin {α : Type} (item : ItemReader α) (s : List Char) :
    Suffices s (item.readWithin · s) (item.readAll s) :=
  fun _ hn => ItemReader.readWithin_eq ((length_le_byteSize s).trans_lt hn)

/-- A call that gives something within one bound that is high enough, and the same within all of
them, has an answer. -/
theorem exists_suffices {β : Type} {s : List Char} {call : Nat → Option β}
    (hsome : (call (byteSize s + 1)).isSome = true)
    (hcongr : ∀ n m, byteSize s < n → byteSize s < m → call n = call m) :
    ∃ x, Suffices s call x := by
  obtain ⟨x, hx⟩ := Option.isSome_iff_exists.1 hsome
  exact ⟨x, fun n hn => (hcongr n _ hn (Nat.lt_succ_self _)).trans hx⟩

/-- **Progress.** Wherever a parse stands in a text, valid or not, and whatever number of blocks is
open, every call and every round that another one follows takes at least one byte, and a bound of
one round more than there are bytes left is never reached. So a parse ends within as many rounds as
its source has bytes, and one. -/
theorem progress_and_parseWithin_eq_parse : (∀ s : Session, s.Progress) ∧
    ∀ source limit n, source.utf8ByteSize < n →
      parseWithin n source limit = some (parse source limit) := by
  refine ⟨fun s => ?_, fun source limit n hn => ?_⟩
  · -- each part is the bound of its own reader, at the text that is unread here
    have hlt := Nat.lt_succ_self (byteSize s.rest)
    exact {
      statement_advances := fun n taken r h =>
        (advances_of_statement (fun _ _ _ => suffix_of_document) h).2
      param_advances := fun p r => Param.item.advances leaves_readParam
      processor_advances := fun p r => Processor.item.advances leaves_readProcessor
      arg_advances := fun v r => Processor.arg.advances leaves_readArg
      comma_advances := fun t v r => advances_of_itemEnd
      separator_advances := advances_of_isSeparator
      calls_advance := fun inner inner' => statement_congr
      params_end := suffices_readWithin Param.item s.rest
      processors_end := suffices_readWithin Processor.item s.rest
      args_end := suffices_readWithin Processor.arg s.rest
      separators_end := fun n => skipWithin_eq
      document_ends := exists_suffices (document_isSome hlt) fun n m => document_congr
      block_ends := exists_suffices (block_isSome (document_isSome hlt)) fun n m hn hm => by
        simp only [block, document_congr hn hm]
      statement_ends := exists_suffices
        (statement_isSome fun t ht => document_isSome (ht.byteSize_lt.trans hlt))
        fun n m hn hm => statement_congr fun t ht =>
          document_congr (ht.byteSize_lt.trans hn) (ht.byteSize_lt.trans hm)
      pass_ends := fun n => Walk.runWithin_eq
      parse_ends := fun n => Session.resultWithin_eq }
  · refine Session.resultWithin_eq (s := .start source limit) ?_
    rw [← byteSize_toList] at hn
    exact hn

end FieldMapping
