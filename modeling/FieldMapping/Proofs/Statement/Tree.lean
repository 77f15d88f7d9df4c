import FieldMapping.Reading.Walk

/-!
# Folds over statement trees

`Statement.fold` goes through a list of statements and all blocks in it, and every measure of a
tree is a fold: how deep its blocks nest (`nesting`), and which statements it has, in the order in
which they are written (`preorder`).
-/

namespace FieldMapping.Statement

variable {β : Type} (nil : β) (cons : String → Option Origin → Option β → β → β)

/-! ### The recursion scheme -/

mutual

/-- Folds a list of statements: `cons` combines a name, an origin, the result of a block and the
result of the statements behind it. -/
def fold : List Statement → β
  | [] => nil
  | s :: ts => foldStatement s (fold ts)

/-- Folds one statement in front of the result of those behind it. -/
def foldStatement : Statement → β → β
  | ⟨name, origin, block⟩, rest => cons name origin (foldBlock block) rest

/-- Folds a block, if there is one. -/
def foldBlock : Option (List Statement) → Option β
  | none => none
  | some ts => some (fold ts)

end

@[simp] theorem fold_nil : fold nil cons [] = nil := rfl

@[simp] theorem fold_cons (name : String) (origin : Option Origin) (block : Option (List Statement))
    (ts : List Statement) : fold nil cons (⟨name, origin, block⟩ :: ts) =
      cons name origin (block.map (fold nil cons)) (fold nil cons ts) := by
  cases block <;> rfl

/-! ### Depth and order -/

variable (name : String) (origin : Option Origin) (inner ts : List Statement) (depth : Nat)

/-- How deep blocks nest in a list of statements. -/
def nesting : List Statement → Nat :=
  fold 0 fun _ _ block rest => max (block.elim 0 (· + 1)) rest

@[simp] theorem nesting_nil : nesting [] = 0 := rfl

@[simp] theorem nesting_cons_none : nesting (⟨name, origin, none⟩ :: ts) = nesting ts := by
  simp [nesting]

@[simp] theorem nesting_cons_some :
    nesting (⟨name, origin, some inner⟩ :: ts) = max (nesting inner + 1) (nesting ts) := by
  simp [nesting]

/-- Statements one behind the other nest as deep as the deeper of both parts. -/
theorem nesting_append : nesting (inner ++ ts) = max (nesting inner) (nesting ts) := by
  induction inner with
  | nil => simp
  | cons s inner ih =>
    obtain ⟨name, origin, block⟩ := s
    cases block <;> simp [ih, Nat.max_assoc]

/-- The statements of a tree in the order in which they are written, each with the number of blocks
around it, in `depth` blocks. -/
def preorder (depth : Nat) (ts : List Statement) : List Visit :=
  fold (fun _ => []) (fun name _ block rest depth =>
    ⟨name, depth⟩ :: (block.elim [] (· (depth + 1)) ++ rest depth)) ts depth

@[simp] theorem preorder_nil : preorder depth [] = [] := rfl

@[simp] theorem preorder_cons_none : preorder depth (⟨name, origin, none⟩ :: ts) =
    ⟨name, depth⟩ :: preorder depth ts := by
  simp [preorder]

@[simp] theorem preorder_cons_some : preorder depth (⟨name, origin, some inner⟩ :: ts) =
    ⟨name, depth⟩ :: (preorder (depth + 1) inner ++ preorder depth ts) := by
  simp [preorder]

/-- The order goes through what stands in front before it goes on behind it. -/
theorem preorder_append :
    preorder depth (inner ++ ts) = preorder depth inner ++ preorder depth ts := by
  induction inner with
  | nil => rfl
  | cons s inner ih =>
    obtain ⟨name, origin, block⟩ := s
    cases block <;> simp [ih]

end FieldMapping.Statement
