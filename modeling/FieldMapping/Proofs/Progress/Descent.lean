import FieldMapping.Proofs.Fault.Place
import FieldMapping.Proofs.Progress.Loops

/-!
# Reading by descent

A document can be read without a list of open blocks. The reader of a list of statements
(`document`) calls that of one statement (`statement`) round after round, and this one calls the
reader of a list again, inside a block (`block`). Nothing in this says that it ends, so the rounds
are bounded: a list takes at most `n` rounds, and the lists within it fewer than that.

What a call for one statement does is said once, in `statement_cases`: it answers by itself, or it
calls for the statements of a block where at least one byte has been taken. So a statement that does
not end its list gets on (`advances_of_statement`), the answer rests on calls for fewer bytes only
(`statement_congr`), and a bound above the number of bytes left is never reached
(`document_isSome`) and does not matter (`document_congr`).
-/

namespace FieldMapping.Descent

open Text Scan Grammar

/-! ### Bounded calls -/

/-- What a call gives within a bound: what it reads from the start of a text and what it leaves, or
a fault. It gives nothing if the bound is reached. -/
abbrev Bounded (α : Type) : Type :=
  Option (Except Fault (α × List Char))

/-- Goes on behind a call that reads something. -/
def Bounded.andThen {α β : Type} (x : Bounded α) (f : α → List Char → Bounded β) : Bounded β :=
  match x with
  | none => none
  | some (.error e) => some (.error e)
  | some (.ok (a, r)) => f a r

section Bounded

variable {α β γ : Type} {x : Bounded α} {f g : α → List Char → Bounded β} {b : β} {r : List Char}

/-- What goes on behind a call gives the fault of the call, or what is read behind it. -/
theorem andThen_eq_some_iff {y : Except Fault (β × List Char)} : x.andThen f = some y ↔
    (∃ e, x = some (.error e) ∧ y = .error e) ∨
      ∃ a t, x = some (.ok (a, t)) ∧ f a t = some y := by
  constructor
  · intro h
    rcases x with _ | e | ⟨a, t⟩
    · cases h
    · exact .inl ⟨e, rfl, (Option.some.inj h).symm⟩
    · exact .inr ⟨a, t, rfl, h⟩
  · rintro (⟨e, rfl, rfl⟩ | ⟨a, t, rfl, h⟩)
    · rfl
    · exact h

/-- Something is read behind a call if the call reads something and so does what follows it. -/
theorem andThen_eq_ok_iff : x.andThen f = some (.ok (b, r)) ↔
    ∃ a t, x = some (.ok (a, t)) ∧ f a t = some (.ok (b, r)) := by
  simp [andThen_eq_some_iff]

/-- Going on twice is going on with both. -/
theorem andThen_assoc {k : β → List Char → Bounded γ} :
    (x.andThen f).andThen k = x.andThen fun a t => (f a t).andThen k := by
  rcases x with _ | _ | ⟨a, t⟩ <;> rfl

/-- What goes on behind a call counts only for what the call gives. -/
theorem andThen_congr (h : ∀ a t, x = some (.ok (a, t)) → f a t = g a t) :
    x.andThen f = x.andThen g := by
  rcases x with _ | _ | ⟨a, t⟩
  · rfl
  · rfl
  · exact h a t rfl

/-- Something is given behind a call if something is given by both. -/
theorem isSome_andThen (hx : x.isSome = true)
    (hf : ∀ a t, x = some (.ok (a, t)) → (f a t).isSome = true) :
    (x.andThen f).isSome = true := by
  rcases x with _ | _ | ⟨a, t⟩
  · exact hx
  · rfl
  · exact hf a t rfl

end Bounded

/-! ### The descent -/

/-- What a call for one statement reads. -/
structure Taken where
  /-- The statement. There is none where nothing but white space is left. -/
  statement : Option Statement
  /-- Whether the list of statements ends behind it. -/
  ended : Bool

/-- The separators behind a statement are taken, and a brace behind them ends the list. -/
def endStatement (st : Statement) (s : List Char) : Taken × List Char :=
  (⟨some st, peekToken (skipSeparators s) = .operator .closeBrace⟩, skipSeparators s)

/-- The brace that closes a block, behind its statements. -/
def closeBlock (ts : List Statement) (s : List Char) : Bounded (List Statement) :=
  match nextToken s with
  | (.operator .closeBrace, r) => some (.ok (ts, r))
  | _ => some (.error (unexpected s))

section Reading

variable (limit : Nat) (inner : List Char → Bounded (List Statement)) (depth : Nat)

/-- A block behind its opening brace; `inner` reads its statements. -/
def block (s : List Char) : Bounded (List Statement) :=
  if depth < limit then (inner s).andThen closeBlock
  else some (.error (.here (.tooDeep limit) s))

/-- One statement of a list that `depth` blocks are open around; `inner` reads the statements of its
block. -/
def statement (s : List Char) : Bounded Taken :=
  match value s with
  | .error f => some (.error f)
  | .ok (name, r) =>
    if name = "" then some (.ok (⟨none, true⟩, r))
    else
      match Origin.readOptional r with
      | .error f => some (.error f)
      | .ok (origin, r) =>
        match nextToken r with
        | (.operator .closeBrace, _) =>
          -- the brace belongs to the block around the list
          some (.ok (⟨some ⟨name, origin, none⟩, true⟩, r))
        | (.operator .openBrace, r) =>
          (block limit inner depth r).andThen fun ts r =>
            some (.ok (endStatement ⟨name, origin, some ts⟩ r))
        | (.operator .comma, r) | (.operator .newline, r) =>
          some (.ok (endStatement ⟨name, origin, none⟩ r))
        | (_, r) =>
          -- no separator, the next statement starts right here
          some (.ok (⟨some ⟨name, origin, none⟩, false⟩, r))

end Reading

/-- The statements of a list that `depth` blocks are open around, in at most `n` rounds. -/
def document (limit : Nat) : Nat → Nat → List Char → Bounded (List Statement)
  | 0, _, _ => none
  | n + 1, depth, s =>
    -- the statements of a block and those behind it are bounded by the same number of rounds
    (statement limit (document limit n (depth + 1)) depth s).andThen fun taken r =>
      if taken.ended then some (.ok (taken.statement.toList, r))
      else (document limit n depth r).andThen fun ts r =>
        some (.ok (taken.statement.toList ++ ts, r))

/-- A whole text, in at most `n` rounds: its statements, and nothing behind them. -/
def parse (limit n depth : Nat) (s : List Char) : Option (Except Fault (List Statement)) :=
  (document limit n depth s).map fun x => do
    let (ts, r) ← x
    match nextToken r with
    | (.endOfInput, _) => .ok ts
    | _ => .error (unexpected r)

/-! ### What a call for one statement does -/

variable {limit n m depth : Nat} {inner inner' : List Char → Bounded (List Statement)}
  {s t u r : List Char} {name : String} {origin : Option Origin} {taken : Taken}
  {ts : List Statement}

/-- The start of a statement takes something: its name. -/
theorem advances_of_head (h : Head s name origin t) : Advances s t := by
  obtain ⟨u, ha, ho⟩ := h
  have hlength : u.length < s.length := length_value_lt (value_of_atom ha) ha.ne_empty
  exact (advances_iff.2 ⟨ha.suffix, hlength⟩).trans_suffix (ho.suffix Source.suffix)

/-- Behind its name and its origin, what comes next decides how a statement goes on. -/
theorem statement_of_head (h : Head s name origin t) : statement limit inner depth s =
    match nextToken t with
    | (.operator .closeBrace, _) => some (.ok (⟨some ⟨name, origin, none⟩, true⟩, t))
    | (.operator .openBrace, r) => (block limit inner depth r).andThen fun ts r =>
        some (.ok (endStatement ⟨name, origin, some ts⟩ r))
    | (.operator .comma, r) | (.operator .newline, r) =>
      some (.ok (endStatement ⟨name, origin, none⟩ r))
    | (_, r) => some (.ok (⟨some ⟨name, origin, none⟩, false⟩, r)) := by
  obtain ⟨u, ha, ho⟩ := h
  unfold statement
  simp only [value_of_atom ha, if_neg ha.ne_empty, readOptional_eq_ok_iff.2 ho]

/-- A brace behind the start of a statement calls for its block. -/
theorem statement_block (h : Head s name origin t) (hb : Sign .openBrace t u) :
    statement limit inner depth s = (block limit inner depth u).andThen fun ts r =>
      some (.ok (endStatement ⟨name, origin, some ts⟩ r)) := by
  rw [statement_of_head h, (nextToken_eq_iff (by decide)).2 hb]

/-- In front of a separator or of the end of a block, a statement ends. -/
theorem statement_ended (h : Head s name origin t) (he : EndsStatement t) :
    statement limit inner depth s = some (.ok (endStatement ⟨name, origin, none⟩ t)) := by
  obtain ⟨o, u, ho, hsign⟩ := he
  have hnext := nextToken_of_sign hsign
  have hpeek : peekToken t = .operator o := by rw [← nextToken_fst, hnext]
  rw [statement_of_head h, hnext, endStatement]
  simp only [List.mem_cons, List.not_mem_nil, or_false] at ho
  -- a separator is the first one that is skipped, and in front of a brace nothing is
  rcases ho with rfl | rfl | rfl
  · have hskip : skipSeparators t = t := by
      rw [skipSeparators, dif_neg (by rw [hpeek]; decide)]
    simp only [hskip, hpeek, decide_true]
  · have hskip : skipSeparators t = skipSeparators (trimStart u) := by
      rw [skipSeparators, dif_pos (by rw [hpeek]; decide), hnext]
      rfl
    rw [hskip]
    rfl
  · have hskip : skipSeparators t = skipSeparators u := by
      rw [skipSeparators, dif_pos (by rw [hpeek]; decide), hnext]
      rfl
    rw [hskip]
    rfl

/-- In front of the next statement, a call for this one answers with it. -/
theorem statement_runOn (h : Head s name origin t) (hr : RunsOn t r) :
    statement limit inner depth s = some (.ok (⟨some ⟨name, origin, none⟩, false⟩, r)) := by
  obtain ⟨token, hnext, hno⟩ := nextToken_of_runsOn hr
  rw [statement_of_head h, hnext]
  split <;> rename_i heq <;> cases heq
  all_goals first | rfl | exact absurd rfl (hno _ (by decide))

/-- Where only white space is left, a call for a statement answers that there is none. -/
theorem statement_finish (h : Skips isSpace s []) :
    statement limit inner depth s = some (.ok (⟨none, true⟩, [])) := by
  unfold statement
  rw [value_eq_ok_iff.2 (.inr ⟨h, rfl, rfl⟩)]
  rfl

/-- Where a statement is due, its start does not fit, the text is at its end, or a statement
starts. A pass stops for the same fault. -/
theorem fault_or_finish_or_head (s : List Char) :
    (∃ f, (∀ limit inner depth, statement limit inner depth s = some (.error f)) ∧
      ∀ limit base (w : Walk), ∃ o, w.takeStatement limit base s = .done o ∧ o.result = .error f) ∨
    Skips isSpace s [] ∨ ∃ name origin t, Head s name origin t := by
  rcases start_cases s with ⟨f, hname⟩ | ⟨name, u, f, ha, horigin⟩ | h
  · refine .inl ⟨f, fun limit inner depth => ?_, fun limit base w => ⟨w.stop base f, ?_, rfl⟩⟩
    · rw [statement, hname]
    · rw [Walk.takeStatement, hname]
  · refine .inl ⟨f, fun limit inner depth => ?_,
      fun limit base w => ⟨(w.visit base name).stop base f, ?_, rfl⟩⟩
    · simp only [statement, value_of_atom ha, if_neg ha.ne_empty, horigin]
    · simp only [Walk.takeStatement, value_of_atom ha, if_neg ha.ne_empty, horigin]
  · exact .inr h

/-- A call for one statement answers by itself. Or it makes one call for the statements of a block,
further on, and goes on behind them. -/
theorem statement_cases (limit depth : Nat) (s : List Char) :
    (∃ x, (∀ inner, statement limit inner depth s = some x) ∧
      ∀ taken r, x = .ok (taken, r) → r <:+ s ∧ (taken.ended = false → Advances s r)) ∨
    ∃ t next, Advances s t ∧
      (∀ inner, statement limit inner depth s = (inner t).andThen next) ∧
      ∀ ts r, ∃ x, next ts r = some x ∧ ∀ taken r', x = .ok (taken, r') → r' <:+ r := by
  rcases fault_or_finish_or_head s with ⟨f, hf, -⟩ | hs | ⟨name, origin, t, hhead⟩
  · exact .inl ⟨.error f, fun inner => hf limit inner depth, fun _ _ h => nomatch h⟩
  · refine .inl ⟨_, fun inner => statement_finish hs, ?_⟩
    rintro taken r ⟨⟩
    exact ⟨List.nil_suffix, nofun⟩
  · -- the name alone is something, so whatever follows starts further on
    have ht : Advances s t := advances_of_head hhead
    rcases behind_cases t with ⟨u, hb⟩ | he | ⟨u, hr⟩
    · by_cases hlimit : depth < limit
      · refine .inr ⟨u, fun ts r => (closeBlock ts r).andThen fun ts r =>
            some (.ok (endStatement ⟨name, origin, some ts⟩ r)),
          ht.trans_suffix hb.suffix, fun inner => ?_, fun ts r => ?_⟩
        · -- the statements of the block start behind its brace
          rw [statement_block hhead hb, block, if_pos hlimit, andThen_assoc]
        · dsimp only
          unfold closeBlock
          split
          · rename_i r' hr'
            refine ⟨_, rfl, ?_⟩
            rintro taken r'' ⟨⟩
            exact (skipSeparators_suffix r').trans (suffix_of_nextToken hr')
          · exact ⟨_, rfl, fun _ _ h => nomatch h⟩
      · -- a block that is too deep is not read
        refine .inl ⟨.error (.here (.tooDeep limit) u), fun inner => ?_, fun _ _ h => nomatch h⟩
        rw [statement_block hhead hb, block, if_neg hlimit]
        rfl
    · refine .inl ⟨_, fun inner => statement_ended hhead he, ?_⟩
      rintro taken r ⟨⟩
      have hr := ht.trans_suffix (skipSeparators_suffix t)
      exact ⟨hr.suffix, fun _ => hr⟩
    · refine .inl ⟨_, fun inner => statement_runOn hhead hr, ?_⟩
      rintro taken r ⟨⟩
      have hr := ht.trans_suffix hr.suffix
      exact ⟨hr.suffix, fun _ => hr⟩

/-! ### Getting on -/

/-- A statement that does not end its list takes something, and none goes back. -/
theorem advances_of_statement
    (hinner : ∀ t ts r, inner t = some (.ok (ts, r)) → r <:+ t)
    (h : statement limit inner depth s = some (.ok (taken, r))) :
    r <:+ s ∧ (taken.ended = false → Advances s r) := by
  rcases statement_cases limit depth s with ⟨x, hx, hr⟩ | ⟨t, next, ht, hnext, hr⟩
  · exact hr taken r (Option.some.inj ((hx inner).symm.trans h))
  · obtain ⟨ts, u, hu, h⟩ := andThen_eq_ok_iff.1 ((hnext inner).symm.trans h)
    -- the block takes its own part behind the brace, and what follows it is still further on
    obtain ⟨x, hx, hr⟩ := hr ts u
    have hu : Advances s u := ht.trans_suffix (hinner t ts u hu)
    have hr := hu.trans_suffix (hr taken r (Option.some.inj (hx.symm.trans h)))
    exact ⟨hr.suffix, fun _ => hr⟩

/-- A list of statements leaves an end of the text. -/
theorem suffix_of_document (h : document limit n depth s = some (.ok (ts, r))) : r <:+ s := by
  -- on the rounds: each goes on where the one before it stopped
  induction n generalizing depth s ts r with
  | zero => cases h
  | succ n ih =>
    obtain ⟨taken, t, ht, h⟩ := andThen_eq_ok_iff.1 h
    have ht := (advances_of_statement (fun _ _ _ => ih) ht).1
    split at h
    · cases h
      exact ht
    · obtain ⟨ts', u, hu, ⟨⟩⟩ := andThen_eq_ok_iff.1 h
      exact (ih hu).trans ht

/-! ### Bounds that suffice -/

/-- What a call for one statement gives rests on calls for fewer bytes. -/
theorem statement_congr (h : ∀ t, Advances s t → inner t = inner' t) :
    statement limit inner depth s = statement limit inner' depth s := by
  rcases statement_cases limit depth s with ⟨x, hx, -⟩ | ⟨t, next, ht, hnext, -⟩
  · rw [hx, hx]
  · rw [hnext, hnext, h t ht]

/-- A call for one statement gives something if the calls for fewer bytes do. -/
theorem statement_isSome (h : ∀ t, Advances s t → (inner t).isSome = true) :
    (statement limit inner depth s).isSome = true := by
  rcases statement_cases limit depth s with ⟨x, hx, -⟩ | ⟨t, next, ht, hnext, hr⟩
  · rw [hx]
    rfl
  · rw [hnext]
    refine isSome_andThen (h t ht) fun ts r _ => ?_
    obtain ⟨x, hx, -⟩ := hr ts r
    rw [hx]
    rfl

/-- A block gives something if the call for its statements does. -/
theorem block_isSome (h : (inner s).isSome = true) :
    (block limit inner depth s).isSome = true := by
  unfold block
  split
  · refine isSome_andThen h fun ts r _ => ?_
    unfold closeBlock
    split <;> rfl
  · rfl

/-- A bound above the number of bytes that are left is never reached. -/
theorem document_isSome (h : byteSize s < n) : (document limit n depth s).isSome = true := by
  -- on the rounds: a block and the rounds behind it have fewer bytes and one round less
  induction n generalizing depth s with
  | zero => exact absurd h (Nat.not_lt_zero _)
  | succ n ih =>
    have hless : ∀ t, Advances s t → byteSize t < n := fun t ht => by
      have := ht.byteSize_lt
      omega
    refine isSome_andThen (statement_isSome fun t ht => ih (hless t ht)) fun taken r hr => ?_
    have hadvances := (advances_of_statement (fun _ _ _ => suffix_of_document) hr).2
    split
    · rfl
    · rename_i he
      -- another round follows, with fewer bytes
      exact isSome_andThen (ih (hless r (hadvances (by simpa using he)))) fun _ _ _ => rfl

/-- Above the number of bytes that are left, one bound is as good as another. -/
theorem document_congr (hn : byteSize s < n) (hm : byteSize s < m) :
    document limit n depth s = document limit m depth s := by
  induction n generalizing m depth s with
  | zero => exact absurd hn (Nat.not_lt_zero _)
  | succ n ih =>
    obtain ⟨m, rfl⟩ := Nat.exists_eq_add_one_of_ne_zero (Nat.ne_zero_of_lt hm)
    -- the block of the statement and the rounds behind it both start further on
    have hcall : ∀ depth t, Advances s t → document limit n depth t = document limit m depth t := by
      intro depth t ht
      have := ht.byteSize_lt
      exact ih (by omega) (by omega)
    unfold document
    rw [statement_congr (hcall (depth + 1))]
    refine andThen_congr fun taken r hr => ?_
    have hadvances := (advances_of_statement (fun _ _ _ => suffix_of_document) hr).2
    split
    · rfl
    · rename_i he
      rw [hcall depth r (hadvances (by simpa using he))]

end FieldMapping.Descent
