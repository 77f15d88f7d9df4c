import FieldMapping.Proofs.Grammar.Image
import FieldMapping.Proofs.Online.Parsing
import FieldMapping.Proofs.Session.Resuming

/-!
# The inside of a block as a document

What stands between the braces of a block means what it means as a document of its own
(`parse_enclose`). A comma is put behind that document, so that its last statement has ended where
the brace of the block would end it.

A reader in a block does what it does outside of it, with one more block around every statement and
one more allowed, as long as it does not refuse anything (`feed_inside`). So everything comes down
to the last character. If the text may end behind the comma, then the comma has ended a statement or
stands behind one; the brace does so too, and closes the block there (`next_comma_cases`).
-/

namespace FieldMapping

/-! ### Passes in a block -/

namespace Walk

variable {b : OpenBlock} {w w' : Walk}

/-- The state of the same pass in the block `b`. -/
def inside (b : OpenBlock) (w : Walk) : Walk :=
  { w.shift 1 with blocks := w.blocks ++ [b], visits := (w.shift 1).visits ++ [⟨b.name, 0⟩] }

/-- In the block, one more block is open. -/
theorem depth_inside : (w.inside b).depth 0 = w.depth 0 + 1 := by
  simp [inside, depth]

/-- A statement that is begun in the block is begun one level deeper. -/
theorem inside_visit (name : String) : (w.visit 0 name).inside b = (w.inside b).visit 0 name := by
  simp [inside, shift, visit, depth, Visit.shift, Nat.add_comm]

/-- A block that can be closed can be closed inside of another one. -/
theorem closeBlock?_inside (h : w.closeBlock? = some w') :
    (w.inside b).closeBlock? = some (w'.inside b) := by
  unfold closeBlock? at h
  split at h
  · cases h
  · rename_i outer hblocks
    cases h
    simp [closeBlock?, inside, shift, hblocks]

end Walk

namespace Online

open Text Scan Grammar

variable {limit : Nat} {b : OpenBlock} {w : Walk} {σ σ' : State} {s : List Char} {c : Char}
  {items : Items} {ts : List Statement}

/-- The same state in the block `b`. -/
def State.inside (b : OpenBlock) (σ : State) : State :=
  { σ with walk := σ.walk.inside b }

/-- `y` is the same as `x` in the block `b`, unless `x` is a refusal. -/
def Within (b : OpenBlock) (x y : Except Cause State) : Prop :=
  ∀ σ, x = .ok σ → y = .ok (σ.inside b)

/-- What is taken leads to the same state in the block. -/
theorem within_ok : Within b (.ok σ) (.ok (σ.inside b)) := by
  intro σ' h
  cases h
  rfl

/-- There is nothing to show of a refusal. -/
theorem within_error {cause : Cause} {y : Except Cause State} : Within b (.error cause) y :=
  fun _ h => nomatch h

/-! ### Taking a character in a block -/

/-- An atom starts in the block where it starts outside of it. -/
theorem within_startAtom {role : Role} :
    Within b (startAtom w role c) (startAtom (w.inside b) role c) := by
  unfold startAtom
  split
  · exact within_error
  · exact within_ok

/-- A value starts in the block where it starts outside of it. -/
theorem within_startValue :
    Within b (startValue w items c) (startValue (w.inside b) items c) := by
  unfold startValue
  split
  · exact within_ok
  · exact within_startAtom

/-- A brace that closes a block of the document closes it in the block as well. One that closes
nothing is refused outside of the block, so it does not count. -/
theorem within_closeBlock : Within b (closeBlock w) (closeBlock (w.inside b)) := by
  unfold closeBlock
  cases h : w.closeBlock? with
  | none => exact within_error
  | some w' =>
    rw [Walk.closeBlock?_inside h]
    exact within_ok

/-- What may follow the start of a statement may follow it in the block. -/
theorem within_behindHead {name : String} {origin : Option Origin} :
    Within b (behindHead limit w name origin c)
      (behindHead (limit + 1) (w.inside b) name origin c) := by
  unfold behindHead
  rw [Walk.depth_inside]
  split
  · -- one more block is open, and one more may be
    by_cases h : w.depth 0 < limit
    · rw [if_pos h, if_pos (Nat.succ_lt_succ h)]
      exact within_ok
    · rw [if_neg h]
      exact within_error
  · exact within_closeBlock
  · exact within_ok
  · exact within_ok
  · exact within_ok
  · exact within_ok

/-- What may follow a processor may follow it in the block. -/
theorem within_behindPipeline {p : Pipeline} :
    Within b (behindPipeline limit w p c) (behindPipeline (limit + 1) (w.inside b) p c) := by
  unfold behindPipeline
  split
  · exact within_ok
  · exact within_behindHead

/-- What ends an item ends it in the block. -/
theorem within_endItem {v : Value} :
    Within b (endItem w items v c) (endItem (w.inside b) items v c) := by
  unfold endItem
  split
  · exact within_ok
  · exact within_ok
  · exact within_error

/-- What ends an atom ends it in the block, whatever the atom is read as. -/
theorem within_endAtom {role : Role} {a : String} :
    Within b (endAtom limit w role a c) (endAtom (limit + 1) (w.inside b) role a c) := by
  unfold endAtom
  cases role with
  | name =>
    -- the statement is begun when its name ends, so its depth is recorded here
    dsimp only
    rw [← Walk.inside_visit]
    split
    · exact within_ok
    · exact within_behindHead
  | origin statement =>
    dsimp only
    split
    · exact within_behindHead
    · split
      · exact within_ok
      · exact within_ok
      · split
        · exact within_behindHead
        · exact within_error
  | key statement type before =>
    dsimp only
    split
    · exact within_ok
    · exact within_ok
    · exact within_error
  | plain items =>
    dsimp only
    split
    · exact within_ok
    · exact within_endItem
  | index items base =>
    dsimp only
    split
    · exact within_ok
    · exact within_error
  | processor p =>
    dsimp only
    split
    · exact within_ok
    · exact within_behindPipeline

/-- A character that is taken outside of a block is taken in the block, with the same effect. -/
theorem within_next (limit : Nat) (b : OpenBlock) (σ : State) (c : Char) :
    Within b (σ.next limit c) ((σ.inside b).next (limit + 1) c) := by
  obtain ⟨w, m⟩ := σ
  unfold State.next State.inside
  -- each kind of step asks for the open blocks only where it opens or closes one
  cases m with
  | due role =>
    dsimp only
    split
    · exact within_ok
    · exact within_startAtom
  | atom role run =>
    dsimp only
    split
    · exact within_endAtom
    · exact within_ok
  | value items =>
    dsimp only
    split
    · exact within_ok
    · split
      · exact within_ok
      · exact within_startValue
  | item items =>
    dsimp only
    split
    · exact within_ok
    · exact within_startValue
  | literal items q body =>
    dsimp only
    split
    · exact within_ok
    · exact within_ok
  | behindValue items v =>
    dsimp only
    split
    · exact within_ok
    · exact within_endItem
  | behindList p =>
    dsimp only
    split
    · exact within_ok
    · exact within_behindPipeline
  | behind =>
    dsimp only
    split
    · exact within_ok
    · split
      · exact within_closeBlock
      · exact within_startAtom

/-- A text that is taken outside of a block is taken in the block. -/
theorem feed_inside (b : OpenBlock) (h : feed limit σ s = .ok σ') :
    feed (limit + 1) (σ.inside b) s = .ok (σ'.inside b) := by
  -- on the text, one character at a time
  induction s generalizing σ with
  | nil =>
    cases h
    rfl
  | cons c s ih =>
    cases hc : σ.next limit c with
    | ok σ₁ =>
      rw [feed_cons_ok hc] at h
      rw [feed_cons_ok (within_next limit b σ c σ₁ hc)]
      exact ih h
    | error cause =>
      rw [feed_cons_error hc] at h
      cases h

/-! ### The ends of the block -/

/-- Behind a name and a brace, a reader is at the start of the block. -/
theorem read_openBlock {x : String} (hx : IsAtom x) (limit : Nat) (s : List Char) :
    read (limit + 1) start (x.toList ++ '{' :: s) =
      read (limit + 1) (start.inside ⟨x, none, []⟩) s := by
  -- the name ends in front of the brace, which is an operator
  have hatom : Atom (x.toList ++ '{' :: s) x ('{' :: s) := atom_append hx (by simp; rfl)
  rw [start, read_due, value_of_atom hatom]
  rfl

/-- A comma is followed by another item, or it has ended a statement or stands behind one. Then a
brace in its place closes the block there. -/
theorem next_comma_cases (h : σ.next limit ',' = .ok σ') :
    (σ'.mode = .behind ∧ σ.next limit '}' = closeBlock σ'.walk) ∨
      ∀ w ts, State.ending ⟨w, σ'.mode⟩ ≠ .ok ts := by
  obtain ⟨w, m⟩ := σ
  -- a comma that ends an item leads to another item, which the end of the text cannot follow
  have hitem : ∀ {w items v}, endItem w items v ',' = .ok σ' →
      ∀ w ts, State.ending ⟨w, σ'.mode⟩ ≠ .ok ts := by
    rintro w items v h w' ts hend
    cases h
    cases items <;> cases hend
  -- a comma that ends a statement ends it where a brace does
  have hhead : ∀ {w name origin}, behindHead limit w name origin ',' = .ok σ' →
      σ'.mode = .behind ∧ behindHead limit w name origin '}' = closeBlock σ'.walk := by
    rintro w name origin h
    cases h
    exact ⟨rfl, rfl⟩
  cases m with
  | atom role run =>
    rw [next_atom_operator rfl] at h ⊢
    generalize String.ofList (trim run) = a at h ⊢
    cases role with
    | name => exact .inl (hhead h)
    | origin statement =>
      rw [endAtom] at h ⊢
      split <;> rename_i hfield
      · rw [if_pos hfield] at h
        exact .inl (hhead h)
      · rw [if_neg hfield] at h
        exact .inl (hhead h)
    | plain items => exact .inr (hitem h)
    | processor p => exact .inl (hhead h)
    | _ => cases h
  | literal items q body =>
    -- the comma belongs to the literal or ends it, and the end of the item is missing
    refine .inr fun w ts hend => ?_
    unfold State.next at h
    dsimp only at h
    split at h <;> cases h <;> cases hend
  | behindValue items v => exact .inr (hitem h)
  | behindList p => exact .inl (hhead h)
  | behind =>
    cases h
    exact .inl ⟨rfl, rfl⟩
  | _ => cases h

/-- Where the document may end, a brace closes the block, with the statements of the document. -/
theorem closeBlock_inside (h : finish w = .ok ts) : ∃ w',
    closeBlock (w.inside b) = .ok ⟨w', .behind⟩ ∧
      finish w' = .ok (b.before.reverse ++ [⟨b.name, b.origin, some ts⟩]) := by
  obtain ⟨hblocks, rfl⟩ := finish_eq_ok_iff.1 h
  have hclose : (w.inside b).closeBlock? = some { w.inside b with
      blocks := []
      before := ⟨b.name, b.origin, some w.before.reverse⟩ :: b.before
      ended := true } := by
    simp [Walk.closeBlock?, Walk.inside, Walk.shift, hblocks]
  refine ⟨_, by rw [closeBlock, hclose], finish_eq_ok_iff.2 ⟨rfl, ?_⟩⟩
  rw [List.reverse_cons]

end Online

open Online

/-- **Blocks as documents.** A text that is parsed as the statements `ts` in front of a comma is
parsed as a block of these statements between a name with a brace and the brace that closes it, with
one more block allowed. -/
theorem parse_enclose {limit : Nat} {x body : String} {ts : List Statement} (hx : IsAtom x)
    (h : parse (body ++ ",") limit = .ok ts) :
    parse (x ++ "\x7b" ++ body ++ "\x7d") (limit + 1) = .ok [⟨x, none, some ts⟩] := by
  obtain ⟨σ', hfeed, hend⟩ := read_eq_ok_iff.1 (parse_eq_ok_iff_read.1 h)
  rw [String.toList_append] at hfeed
  obtain ⟨σ, hbody, hcomma⟩ := exists_of_feed_concat hfeed
  -- the same in the block, where the brace comes in place of the comma
  have hbody' := feed_inside ⟨x, none, []⟩ hbody
  have hcomma' := within_next limit ⟨x, none, []⟩ σ ',' σ' hcomma
  rcases next_comma_cases hcomma' with ⟨hmode, hbrace⟩ | hno
  · have hfinish : finish σ'.walk = .ok ts := by
      rw [← hend, State.ending, show σ'.mode = .behind from hmode]
    obtain ⟨w', hclose, hw'⟩ := closeBlock_inside (b := ⟨x, none, []⟩) hfinish
    rw [parse_eq_ok_iff_read]
    simp only [String.toList_append, List.append_assoc]
    change read (limit + 1) start (x.toList ++ '{' :: (body.toList ++ ['}'])) = _
    rw [read_openBlock hx, read_append, hbody']
    change read (limit + 1) (σ.inside ⟨x, none, []⟩) ['}'] = _
    rw [read_cons_ok (hbrace.trans hclose)]
    exact mapError_eq_ok_iff.2 hw'
  · exact absurd hend (hno σ'.walk ts)

/-- The body ends behind a pipeline, with one block within the limit. -/
theorem parse_enclose_pipeline : ∃ ts, IsAtom "$root" ∧
    parse ("a\x7bb,\x7d c: T | Trim" ++ ",") 1 = .ok ts ∧
    parse ("$root" ++ "\x7b" ++ "a\x7bb,\x7d c: T | Trim" ++ "\x7d") 2 =
      .ok [⟨"$root", none, some ts⟩] := by
  have hx : IsAtom "$root" := by decide +kernel
  have h : parse ("a\x7bb,\x7d c: T | Trim" ++ ",") 1 =
      .ok [⟨"a", none, some [⟨"b", none, none⟩]⟩,
        ⟨"c", some (.type ⟨"T", none, some [⟨"Trim", []⟩]⟩), none⟩] := by decide +kernel
  exact ⟨_, hx, h, parse_enclose hx h⟩

end FieldMapping
