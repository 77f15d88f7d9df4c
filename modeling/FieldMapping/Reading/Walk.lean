import FieldMapping.Reading.Origin

/-!
# Walking through a document

A document is read statement by statement in one pass, and no statement is looked at twice. The
state of the pass is a `Walk`: the statements whose blocks are still open, the statements read so
far in the innermost of them, and whether the last statement has ended, so that separators and the
end of its block may follow. `Walk.step` takes one statement, or the end of one block, and
`Walk.run` takes steps until the input is used up or a fault stops the pass.

Every step that another one follows takes something (`Walk.length_step_lt`), so the pass ends.

The pass is told two numbers: `base`, the number of blocks around the document, and `limit`, the
number of blocks that may be open around a statement.
-/

namespace FieldMapping

open Text Scan

/-! ### The state of a pass -/

/-- A statement met on the way: its name, and the number of blocks around it. -/
structure Visit where
  name : String
  depth : Nat
  deriving DecidableEq, Repr

/-- A statement whose block is still open. -/
structure OpenBlock where
  name : String
  origin : Option Origin
  /-- The statements before it in its own block, the latest first. -/
  before : List Statement
  deriving DecidableEq

/-- The state of a pass between two statements. -/
structure Walk where
  /-- The statements around this place, the innermost first. -/
  blocks : List OpenBlock := []
  /-- The statements read so far in the innermost block, the latest first. -/
  before : List Statement := []
  /-- The statements met so far, the latest first. -/
  visits : List Visit := []
  /-- Whether the last statement has ended. -/
  ended : Bool := false
  deriving DecidableEq

/-- How a pass ended. -/
structure Outcome where
  /-- The statements of the document, or what stopped the pass. -/
  result : Except Fault (List Statement)
  /-- The statements met, in their order. -/
  visits : List Visit
  /-- The number of blocks left open, those around the document included. -/
  depth : Nat
  deriving DecidableEq

/-- The text left by a pass. -/
def Outcome.rest (o : Outcome) : List Char :=
  match o.result with
  | .ok _ => []
  | .error f => f.rest

/-- What one step leads to. -/
inductive Step where
  /-- The pass goes on with the text `rest`. -/
  | next (walk : Walk) (rest : List Char)
  /-- The pass has ended. -/
  | done (outcome : Outcome)
  deriving DecidableEq

namespace Walk

/-- The number of blocks around the next statement. -/
def depth (base : Nat) (w : Walk) : Nat :=
  base + w.blocks.length

/-- A statement with the given name starts here. -/
def visit (base : Nat) (w : Walk) (name : String) : Walk :=
  { w with visits := ⟨name, w.depth base⟩ :: w.visits }

/-- A statement without a block has been read. -/
def add (w : Walk) (name : String) (origin : Option Origin) (ended : Bool) : Walk :=
  { w with before := ⟨name, origin, none⟩ :: w.before, ended }

/-- The block of a statement opens. -/
def openBlock (w : Walk) (name : String) (origin : Option Origin) : Walk :=
  { w with blocks := ⟨name, origin, w.before⟩ :: w.blocks, before := [], ended := false }

/-- The innermost block closes, if one is open, and with it ends the statement it belongs to. -/
def closeBlock? (w : Walk) : Option Walk :=
  match w.blocks with
  | [] => none
  | b :: outer =>
    some { w with
      blocks := outer
      before := ⟨b.name, b.origin, some w.before.reverse⟩ :: b.before
      ended := true }

/-- The pass is stopped by a fault. -/
def stop (base : Nat) (w : Walk) (f : Fault) : Outcome :=
  ⟨.error f, w.visits.reverse, w.depth base⟩

/-- The pass has come to the end of the input. A block that is still open lacks its end; it counts
as closed all the same. -/
def finish (base : Nat) (w : Walk) : Outcome :=
  match w.blocks with
  | [] => ⟨.ok w.before.reverse, w.visits.reverse, base⟩
  | _ :: outer => ⟨.error (unexpected []), w.visits.reverse, base + outer.length⟩

@[simp] theorem depth_visit (base : Nat) (w : Walk) (name : String) :
    (w.visit base name).depth base = w.depth base := rfl

@[simp] theorem depth_add (base : Nat) (w : Walk) (name : String) (origin : Option Origin)
    (ended : Bool) : (w.add name origin ended).depth base = w.depth base := rfl

@[simp] theorem depth_openBlock (base : Nat) (w : Walk) (name : String)
    (origin : Option Origin) : (w.openBlock name origin).depth base = w.depth base + 1 := rfl

/-- A block that closes leaves one block less around the next statement. -/
theorem depth_closeBlock? {base : Nat} {w w' : Walk} (h : w.closeBlock? = some w') :
    w'.depth base + 1 = w.depth base := by
  unfold closeBlock? at h
  split at h
  · cases h
  · rename_i b outer hb
    cases h
    simp only [depth, hb, List.length_cons, Nat.add_assoc]

/-! ### Steps -/

/-- Whether `c` may stand between a statement that has ended and the next one. -/
def isSeparating (c : Char) : Bool :=
  isSpace c || c == Operator.comma.char

/-- Takes one statement, up to its separator or the start of its block. -/
def takeStatement (limit base : Nat) (w : Walk) (s : List Char) : Step :=
  match value s with
  | .error f => .done (w.stop base f)
  | .ok (name, r) =>
    if name = "" then .done (w.finish base)
    else
      let w := w.visit base name
      match Origin.readOptional r with
      | .error f => .done (w.stop base f)
      | .ok (origin, r) =>
        match nextToken r with
        | (.operator .openBrace, r) =>
          if w.depth base < limit then .next (w.openBlock name origin) r
          else .done (w.stop base (.here (.tooDeep limit) r))
        | (.operator .closeBrace, _) | (.operator .comma, _) | (.operator .newline, _) =>
          -- the separators are left for the next step, which may find the end of a block there
          .next (w.add name origin true) r
        | (_, r) =>
          -- no separator, the next statement starts right here
          .next (w.add name origin false) r

/-- Takes the end of a block behind a statement that has ended, or one statement. -/
def step (limit base : Nat) (w : Walk) (s : List Char) : Step :=
  if w.ended then
    let r := s.dropWhile isSeparating
    match nextToken r with
    | (.operator .closeBrace, r') =>
      match w.closeBlock? with
      | some w => .next w r'
      | none =>
        -- no block is open that this brace could close
        .done (w.stop base (unexpected r))
    | _ => w.takeStatement limit base r
  else w.takeStatement limit base s

/-- A statement that another step follows has a name, and the name is taken; what is read behind it
never lengthens the text. -/
theorem length_takeStatement_lt {limit base : Nat} {w w' : Walk} {s r : List Char}
    (h : w.takeStatement limit base s = .next w' r) : r.length < s.length := by
  unfold takeStatement at h
  split at h
  · cases h
  · rename_i name r₁ h₁
    split at h
    · cases h
    · rename_i hname
      have hr₁ := length_value_lt h₁ hname
      simp only at h
      split at h
      · cases h
      · rename_i origin r₂ h₂
        have hr₂ := Origin.length_readOptional_le h₂
        have hr₃ := length_nextToken_le r₂
        split at h
        · -- a block opens
          rename_i r₃ h₃
          split at h
          · cases h
            exact Nat.lt_trans (length_nextToken_lt h₃) (Nat.lt_of_le_of_lt hr₂ hr₁)
          · cases h
        · cases h
          omega
        · cases h
          omega
        · cases h
          omega
        · rename_i r₃ _ _ _ _ h₃
          cases h
          rw [h₃] at hr₃
          exact Nat.lt_of_le_of_lt (Nat.le_trans hr₃ hr₂) hr₁

/-- A step that another one follows takes something. -/
theorem length_step_lt {limit base : Nat} {w w' : Walk} {s r : List Char}
    (h : w.step limit base s = .next w' r) : r.length < s.length := by
  unfold step at h
  split at h
  · have hs := (List.dropWhile_sublist isSeparating (l := s)).length_le
    simp only at h
    split at h
    · rename_i r' hr'
      split at h
      · cases h
        exact Nat.lt_of_lt_of_le (length_nextToken_lt hr') hs
      · cases h
    · exact Nat.lt_of_lt_of_le (length_takeStatement_lt h) hs
  · exact length_takeStatement_lt h

/-- Takes steps until the pass ends. -/
def run (limit base : Nat) (w : Walk) (s : List Char) : Outcome :=
  match _h : w.step limit base s with
  | .next w r => w.run limit base r
  | .done o => o
termination_by s.length
decreasing_by exact length_step_lt _h

/-- A pass goes on behind a step that another one follows. With `run_of_done` it is all that the
theory uses of the recursion of `run`. -/
theorem run_of_next {limit base : Nat} {w w' : Walk} {s r : List Char}
    (h : w.step limit base s = .next w' r) : w.run limit base s = w'.run limit base r := by
  rw [run]
  split <;> simp_all

/-- A pass ends with the step that nothing follows. -/
theorem run_of_done {limit base : Nat} {w : Walk} {s : List Char} {o : Outcome}
    (h : w.step limit base s = .done o) : w.run limit base s = o := by
  rw [run]
  split <;> simp_all

end Walk

end FieldMapping
