import FieldMapping.Proofs.Statement.Tree

/-!
# Atoms and braces of a tree

A text that is read as a list of statements has two things in it that the list determines: the texts
that name something (`Statement.atoms`), and the braces of the blocks (`Statement.braces`), both in
written order. The braces of a tree are balanced, with one opening brace for each block.
-/

namespace FieldMapping

/-! ### Atoms -/

/-- The atoms of a value. -/
def Value.atoms : Value → List String
  | .scalar a => [a]
  | .indexed base index => [base, index]

/-- The atoms of a parameter. -/
def Param.atoms (p : Param) : List String :=
  p.key :: p.value.elim [] Value.atoms

/-- The atoms of a processor, which may lack a name. -/
def Processor.atoms (p : Processor) : List String :=
  (if p.name = "" then [] else [p.name]) ++ p.args.flatMap Value.atoms

/-- The atoms of an origin. -/
def Origin.atoms : Origin → List String
  | .field name => [name]
  | .type ref => ref.name ::
      (ref.params.elim [] (·.flatMap Param.atoms) ++
        ref.processors.elim [] (·.flatMap Processor.atoms))

namespace Statement

/-- The atoms of a list of statements: of each its name, then those of its origin, then those of its
block. -/
def atoms : List Statement → List String :=
  fold [] fun name origin block rest =>
    name :: (origin.elim [] Origin.atoms ++ (block.getD [] ++ rest))

variable (name : String) (origin : Option Origin) (inner ts : List Statement)

@[simp] theorem atoms_nil : atoms [] = [] := rfl

@[simp] theorem atoms_cons_none : atoms (⟨name, origin, none⟩ :: ts) =
    name :: (origin.elim [] Origin.atoms ++ atoms ts) := by
  simp [atoms]

@[simp] theorem atoms_cons_some : atoms (⟨name, origin, some inner⟩ :: ts) =
    name :: (origin.elim [] Origin.atoms ++ (atoms inner ++ atoms ts)) := by
  simp [atoms]

/-! ### Blocks and braces -/

/-- How many statements of a tree have a block. -/
def blocks : List Statement → Nat :=
  fold 0 fun _ _ block rest => block.elim 0 (· + 1) + rest

/-- The braces around the blocks of a list of statements. -/
def braces : List Statement → List Char :=
  fold [] fun _ _ block rest => block.elim [] (fun b => '{' :: (b ++ ['}'])) ++ rest

@[simp] theorem blocks_nil : blocks [] = 0 := rfl

@[simp] theorem blocks_cons_none : blocks (⟨name, origin, none⟩ :: ts) = blocks ts := by
  simp [blocks]

@[simp] theorem blocks_cons_some :
    blocks (⟨name, origin, some inner⟩ :: ts) = blocks inner + 1 + blocks ts := by
  simp [blocks]

@[simp] theorem braces_nil : braces [] = [] := rfl

@[simp] theorem braces_cons_none : braces (⟨name, origin, none⟩ :: ts) = braces ts := by
  simp [braces]

@[simp] theorem braces_cons_some : braces (⟨name, origin, some inner⟩ :: ts) =
    '{' :: (braces inner ++ ['}']) ++ braces ts := by
  simp [braces]

/-- Each block has one opening brace. -/
theorem count_braces : (braces ts).count '{' = blocks ts := by
  induction ts using recOnList with
  | nil => rfl
  | cons name origin block ts hblock hts =>
    cases block with
    | none => rw [braces_cons_none, blocks_cons_none, hts]
    | some inner =>
      rw [braces_cons_some, blocks_cons_some, List.count_append, hts, List.count_cons_self,
        List.count_append, hblock inner rfl]
      simp

end Statement

/-! ### Balance -/

/-- Every brace that is opened in `s` is closed in `s`, and none is closed before it is opened. -/
structure Balanced (s : List Char) : Prop where
  count_eq : s.count '}' = s.count '{'
  count_take_le : ∀ n, (s.take n).count '}' ≤ (s.take n).count '{'

namespace Balanced

variable {s t : List Char}

protected theorem nil : Balanced [] :=
  ⟨rfl, by simp⟩

protected theorem append (hs : Balanced s) (ht : Balanced t) : Balanced (s ++ t) where
  count_eq := by rw [List.count_append, List.count_append, hs.count_eq, ht.count_eq]
  count_take_le n := by
    rw [List.take_append, List.count_append, List.count_append]
    exact Nat.add_le_add (hs.count_take_le n) (ht.count_take_le _)

/-- A balanced text stays so between two braces. -/
theorem enclose (hs : Balanced s) : Balanced ('{' :: (s ++ ['}'])) where
  count_eq := by
    have h := hs.count_eq
    simp [h]
  count_take_le n := by
    cases n with
    | zero => simp
    | succ n =>
      -- of the closing brace at the end, a beginning has one at most, behind the opening one
      have hle : (['}'].take (n - s.length)).count '}' ≤ 1 :=
        (List.take_sublist _ _).count_le _
      have h := hs.count_take_le n
      rw [List.take_succ_cons, List.take_append, List.count_cons_of_ne (by decide),
        List.count_cons_self, List.count_append, List.count_append]
      omega

/-- Only the braces of a text matter. -/
theorem of_filter {p : Char → Bool} (hp : p '{' = true) (hp' : p '}' = true)
    (h : Balanced (s.filter p)) : Balanced s where
  count_eq := by simpa [List.count_filter, hp, hp'] using h.count_eq
  count_take_le n := by
    -- the braces of a prefix are a prefix of the braces
    have hpre := (List.take_prefix n s).filter p
    have h := h.count_take_le ((s.take n).filter p).length
    rw [← List.prefix_iff_eq_take.1 hpre] at h
    simpa [List.count_filter, hp, hp'] using h

end Balanced

/-- The braces of a tree are balanced: each block is between its own. -/
theorem Statement.balanced_braces (ts : List Statement) : Balanced (braces ts) := by
  -- on the statements and, for each of them, those of its block
  induction ts using recOnList with
  | nil => exact .nil
  | cons name origin block ts hblock hts =>
    cases block with
    | none => rwa [braces_cons_none]
    | some inner =>
      rw [braces_cons_some]
      exact (hblock inner rfl).enclose.append hts

end FieldMapping
