import FieldMapping.Proofs.Online.Reader

/-!
# Replacing one scalar

Two lists of statements that are the same up to one scalar among the values of parameters and
arguments, which is `x` in the one and `y` in the other (`ReplacesOne (Statement.Replaces x y)`).

The reader never looks at a value again that it has read. Two states of it that are the same up to
one such scalar (`State.Replaces`) therefore stay so behind every character, or both refuse the
character for the same reason (`agree_next`), and what they end with is the same up to that scalar
(`agree_read`).
-/

namespace FieldMapping

/-- The second list is the first with exactly one element replaced, by one that `R` relates to
it. -/
inductive ReplacesOne {α : Type} (R : α → α → Prop) : List α → List α → Prop
  | head {a a' : α} {l : List α} (h : R a a') : ReplacesOne R (a :: l) (a' :: l)
  | tail {a : α} {l l' : List α} (h : ReplacesOne R l l') : ReplacesOne R (a :: l) (a :: l')

namespace ReplacesOne

variable {α : Type} {R : α → α → Prop} {l l' : List α}

/-- Replacing an element keeps the length. -/
theorem length_eq (h : ReplacesOne R l l') : l.length = l'.length := by
  induction h with
  | head => rfl
  | tail _ ih => rw [List.length_cons, List.length_cons, ih]

/-- A list in which an element is replaced is not empty. -/
theorem ne_nil (h : ReplacesOne R l l') : l ≠ [] ∧ l' ≠ [] := by
  cases h <;> exact ⟨List.cons_ne_nil _ _, List.cons_ne_nil _ _⟩

/-- Nothing is replaced in what follows. -/
theorem append_right (h : ReplacesOne R l l') (t : List α) : ReplacesOne R (l ++ t) (l' ++ t) := by
  induction h with
  | head h => exact .head h
  | tail _ ih => exact .tail ih

/-- Nothing is replaced in what stands in front. -/
theorem append_left (t : List α) (h : ReplacesOne R l l') : ReplacesOne R (t ++ l) (t ++ l') := by
  induction t with
  | nil => exact h
  | cons a t ih => exact .tail ih

/-- The last element is replaced. -/
theorem concat {a a' : α} (l : List α) (h : R a a') : ReplacesOne R (l ++ [a]) (l ++ [a']) :=
  append_left l (.head h)

/-- Replacing an element and reversing the list do not get in each other's way. -/
theorem reverse (h : ReplacesOne R l l') : ReplacesOne R l.reverse l'.reverse := by
  induction h with
  | head h =>
    rw [List.reverse_cons, List.reverse_cons]
    exact concat _ h
  | tail _ ih =>
    rw [List.reverse_cons, List.reverse_cons]
    exact ih.append_right _

end ReplacesOne

/-! ### Trees -/

section Trees

variable (x y : String)

/-- The value `x`, replaced by `y`. -/
inductive Value.Replaces : Value → Value → Prop
  | scalar : Value.Replaces (.scalar x) (.scalar y)

/-- A parameter, with its value replaced. -/
inductive Param.Replaces : Param → Param → Prop
  | value {key : String} {v v' : Value} (h : Value.Replaces x y v v') :
      Param.Replaces ⟨key, some v⟩ ⟨key, some v'⟩

/-- A processor, with one of its arguments replaced. -/
inductive Processor.Replaces : Processor → Processor → Prop
  | args {name : String} {vs vs' : List Value} (h : ReplacesOne (Value.Replaces x y) vs vs') :
      Processor.Replaces ⟨name, vs⟩ ⟨name, vs'⟩

/-- A type, with a value replaced in its parameters or in its processors. -/
inductive TypeRef.Replaces : TypeRef → TypeRef → Prop
  | params {name : String} {ps ps' : List Param} {processors : Option (List Processor)}
      (h : ReplacesOne (Param.Replaces x y) ps ps') :
      TypeRef.Replaces ⟨name, some ps, processors⟩ ⟨name, some ps', processors⟩
  | processors {name : String} {params : Option (List Param)} {ps ps' : List Processor}
      (h : ReplacesOne (Processor.Replaces x y) ps ps') :
      TypeRef.Replaces ⟨name, params, some ps⟩ ⟨name, params, some ps'⟩

/-- An origin that is a type, with a value of the type replaced. -/
inductive Origin.Replaces : Origin → Origin → Prop
  | type {ref ref' : TypeRef} (h : TypeRef.Replaces x y ref ref') :
      Origin.Replaces (.type ref) (.type ref')

/-- The second statement is the first with exactly one value of a parameter or an argument replaced,
the scalar `x` by the scalar `y`. -/
inductive Statement.Replaces : Statement → Statement → Prop
  | origin {name : String} {o o' : Origin} {block : Option (List Statement)}
      (h : Origin.Replaces x y o o') :
      Statement.Replaces ⟨name, some o, block⟩ ⟨name, some o', block⟩
  | block {name : String} {origin : Option Origin} {ts ts' : List Statement}
      (h : ReplacesOne Statement.Replaces ts ts') :
      Statement.Replaces ⟨name, origin, some ts⟩ ⟨name, origin, some ts'⟩

end Trees

namespace Online

/-! ### States -/

section States

variable (x y : String)

/-- A pipeline as far as it has been read, with one value replaced. -/
inductive Pipeline.Replaces : Pipeline → Pipeline → Prop
  | params {statement type : String} {ps ps' : List Param} {processors : List Processor}
      (h : ReplacesOne (Param.Replaces x y) ps ps') :
      Pipeline.Replaces ⟨statement, type, some ps, processors⟩
        ⟨statement, type, some ps', processors⟩
  | processors {statement type : String} {params : Option (List Param)} {ps ps' : List Processor}
      (h : ReplacesOne (Processor.Replaces x y) ps ps') :
      Pipeline.Replaces ⟨statement, type, params, ps⟩ ⟨statement, type, params, ps'⟩

/-- The items of a list as far as they have been read, with one value replaced in them or in front
of the list. -/
inductive Items.Replaces : Items → Items → Prop
  | params {statement type key : String} {ps ps' : List Param}
      (h : ReplacesOne (Param.Replaces x y) ps ps') :
      Items.Replaces (.params statement type ps key) (.params statement type ps' key)
  | pipeline {p p' : Pipeline} {name : String} {vs : List Value} (h : Pipeline.Replaces x y p p') :
      Items.Replaces (.args p name vs) (.args p' name vs)
  | args {p : Pipeline} {name : String} {vs vs' : List Value}
      (h : ReplacesOne (Value.Replaces x y) vs vs') :
      Items.Replaces (.args p name vs) (.args p name vs')

/-- What an atom is read as, with one value replaced in what stands in front of it. -/
inductive Role.Replaces : Role → Role → Prop
  | key {statement type : String} {ps ps' : List Param}
      (h : ReplacesOne (Param.Replaces x y) ps ps') :
      Role.Replaces (.key statement type ps) (.key statement type ps')
  | plain {items items' : Items} (h : Items.Replaces x y items items') :
      Role.Replaces (.plain items) (.plain items')
  | index {items items' : Items} {base : String} (h : Items.Replaces x y items items') :
      Role.Replaces (.index items base) (.index items' base)
  | processor {p p' : Pipeline} (h : Pipeline.Replaces x y p p') :
      Role.Replaces (.processor p) (.processor p')

inductive OpenBlock.Replaces : OpenBlock → OpenBlock → Prop
  | origin {name : String} {o o' : Origin} {before : List Statement}
      (h : Origin.Replaces x y o o') :
      OpenBlock.Replaces ⟨name, some o, before⟩ ⟨name, some o', before⟩
  | before {name : String} {origin : Option Origin} {ts ts' : List Statement}
      (h : ReplacesOne (Statement.Replaces x y) ts ts') :
      OpenBlock.Replaces ⟨name, origin, ts⟩ ⟨name, origin, ts'⟩

/-- The pass over the statements, with one value replaced in an open block or in front of the next
statement. -/
inductive Walk.Replaces : Walk → Walk → Prop
  | blocks {bs bs' : List OpenBlock} {before : List Statement} {visits : List Visit} {ended : Bool}
      (h : ReplacesOne (OpenBlock.Replaces x y) bs bs') :
      Walk.Replaces ⟨bs, before, visits, ended⟩ ⟨bs', before, visits, ended⟩
  | before {blocks : List OpenBlock} {ts ts' : List Statement} {visits : List Visit} {ended : Bool}
      (h : ReplacesOne (Statement.Replaces x y) ts ts') :
      Walk.Replaces ⟨blocks, ts, visits, ended⟩ ⟨blocks, ts', visits, ended⟩

/-- The pass over the statements and something else, exactly one of which is replaced. -/
inductive Beside {α : Type} (R : α → α → Prop) : Walk → α → Walk → α → Prop
  | walk {w w' : Walk} {a : α} (h : Walk.Replaces x y w w') : Beside R w a w' a
  | other {w : Walk} {a a' : α} (h : R a a') : Beside R w a w a'

/-- The origin of a statement is replaced. -/
inductive HeadReplaces : Option Origin → Option Origin → Prop
  | origin {o o' : Origin} (h : Origin.Replaces x y o o') : HeadReplaces (some o) (some o')

/-- A value that has been read, or what has been read before it, is replaced. -/
inductive ItemReplaces : Items × Value → Items × Value → Prop
  | items {items items' : Items} {v : Value} (h : Items.Replaces x y items items') :
      ItemReplaces (items, v) (items', v)
  | value {items : Items} {v v' : Value} (h : Value.Replaces x y v v') :
      ItemReplaces (items, v) (items, v')

/-- The second state is the first with exactly one value replaced that has been read, the scalar `x`
by the scalar `y`. -/
inductive State.Replaces : State → State → Prop
  | due {w w' : Walk} {role role' : Role} (h : Beside x y (Role.Replaces x y) w role w' role') :
      State.Replaces ⟨w, .due role⟩ ⟨w', .due role'⟩
  | atom {w w' : Walk} {role role' : Role} {run : List Char}
      (h : Beside x y (Role.Replaces x y) w role w' role') :
      State.Replaces ⟨w, .atom role run⟩ ⟨w', .atom role' run⟩
  | value {w w' : Walk} {items items' : Items}
      (h : Beside x y (Items.Replaces x y) w items w' items') :
      State.Replaces ⟨w, .value items⟩ ⟨w', .value items'⟩
  | item {w w' : Walk} {items items' : Items}
      (h : Beside x y (Items.Replaces x y) w items w' items') :
      State.Replaces ⟨w, .item items⟩ ⟨w', .item items'⟩
  | literal {w w' : Walk} {items items' : Items} {quote : Char} {body : List Char}
      (h : Beside x y (Items.Replaces x y) w items w' items') :
      State.Replaces ⟨w, .literal items quote body⟩ ⟨w', .literal items' quote body⟩
  | behindValue {w w' : Walk} {items items' : Items} {v v' : Value}
      (h : Beside x y (ItemReplaces x y) w (items, v) w' (items', v')) :
      State.Replaces ⟨w, .behindValue items v⟩ ⟨w', .behindValue items' v'⟩
  | behindList {w w' : Walk} {p p' : Pipeline}
      (h : Beside x y (Pipeline.Replaces x y) w p w' p') :
      State.Replaces ⟨w, .behindList p⟩ ⟨w', .behindList p'⟩
  | behind {w w' : Walk} (h : Walk.Replaces x y w w') :
      State.Replaces ⟨w, .behind⟩ ⟨w', .behind⟩

end States

/-- Both succeed with things that `R` relates, or both fail in the same way. -/
inductive Agree {ε α : Type} (R : α → α → Prop) : Except ε α → Except ε α → Prop
  | ok {a a' : α} (h : R a a') : Agree R (.ok a) (.ok a')
  | error (e : ε) : Agree R (.error e) (.error e)

/-- Results that agree do so when their errors are read in another way. -/
theorem Agree.mapError {ε δ α : Type} {R : α → α → Prop} {r r' : Except ε α} (h : Agree R r r')
    (f : ε → δ) : Agree R (r.mapError f) (r'.mapError f) := by
  cases h with
  | ok h => exact .ok h
  | error e => exact .error _

variable {x y : String} {limit : Nat} {w w' : Walk} {σ σ' : State} {c : Char}

/-- What is put together from the something else has a value replaced if that has. -/
theorem Beside.map {α β : Type} {R : α → α → Prop} {S : β → β → Prop} {a a' : α} {f : α → β}
    (h : Beside x y R w a w' a') (hf : ∀ {a a'}, R a a' → S (f a) (f a')) :
    Beside x y S w (f a) w' (f a') := by
  cases h with
  | walk h => exact .walk h
  | other h => exact .other (hf h)

/-- Right behind a scalar that is replaced. -/
theorem State.replaces_scalar (x y : String) (w : Walk) (items : Items) :
    State.Replaces x y ⟨w, .behindValue items (.scalar x)⟩ ⟨w, .behindValue items (.scalar y)⟩ :=
  .behindValue (.other (.value .scalar))

/-! ### The pass -/

/-- As many blocks are open in both. -/
theorem Walk.Replaces.depth_eq (h : Walk.Replaces x y w w') : w.depth 0 = w'.depth 0 := by
  cases h with
  | blocks h => exact congrArg (0 + ·) h.length_eq
  | before h => rfl

/-- The next statement begins in both in the same way. -/
theorem Walk.Replaces.visit (h : Walk.Replaces x y w w') (name : String) :
    Walk.Replaces x y (w.visit 0 name) (w'.visit 0 name) := by
  unfold Walk.visit
  rw [h.depth_eq]
  cases h with
  | blocks h => exact .blocks h
  | before h => exact .before h

section Heads

variable {origin origin' : Option Origin}

/-- As many blocks are open in both, in front of a statement with its origin. -/
theorem HeadReplaces.depth_eq (h : Beside x y (HeadReplaces x y) w origin w' origin') :
    w.depth 0 = w'.depth 0 := by
  cases h with
  | walk h => exact h.depth_eq
  | other h => rfl

/-- A statement is added with its origin. If a value of the origin is replaced, it is now one of the
statement. -/
theorem HeadReplaces.add (h : Beside x y (HeadReplaces x y) w origin w' origin') (name : String)
    (ended : Bool) : Walk.Replaces x y (w.add name origin ended) (w'.add name origin' ended) := by
  cases h with
  | walk h =>
    cases h with
    | blocks h => exact .blocks h
    | before h => exact .before (.tail h)
  | other h =>
    cases h with
    | origin h => exact .before (.head (.origin h))

/-- A block is opened with its origin. If a value of the origin is replaced, it is now one of the
open block. -/
theorem HeadReplaces.openBlock (h : Beside x y (HeadReplaces x y) w origin w' origin')
    (name : String) : Walk.Replaces x y (w.openBlock name origin) (w'.openBlock name origin') := by
  cases h with
  | walk h =>
    cases h with
    | blocks h => exact .blocks (.tail h)
    | before h => exact .blocks (.head (.before h))
  | other h =>
    cases h with
    | origin h => exact .blocks (.head (.origin h))

end Heads

/-- A brace closes the innermost block in both, or none is open in either. -/
theorem agree_closeBlock (h : Walk.Replaces x y w w') :
    Agree (State.Replaces x y) (closeBlock w) (closeBlock w') := by
  cases h with
  | blocks h =>
    cases h with
    | head h =>
      -- the innermost block becomes a statement of the one around it
      cases h with
      | origin h => exact .ok (.behind (.before (.head (.origin h))))
      | before h => exact .ok (.behind (.before (.tail h)))
    | tail h => exact .ok (.behind (.blocks h))
  | @before blocks ts ts' visits ended h =>
    cases blocks with
    | nil => exact .error _
    | cons b outer =>
      -- the replaced statement is in the block that is closed
      exact .ok (.behind (.before (.head (.block h.reverse))))

/-- The end of the text ends both documents, or a block is open in both. -/
theorem agree_finish (h : Walk.Replaces x y w w') :
    Agree (ReplacesOne (Statement.Replaces x y)) (finish w) (finish w') := by
  cases h with
  | blocks h => cases h <;> exact .error _
  | @before blocks ts ts' visits ended h =>
    cases blocks with
    | nil => exact .ok h.reverse
    | cons b outer => exact .error _

/-! ### Statements -/

/-- Behind the start of a statement, a character leads to the same in both. -/
theorem agree_behindHead {origin origin' : Option Origin}
    (h : Beside x y (HeadReplaces x y) w origin w' origin') (name : String) :
    Agree (State.Replaces x y) (behindHead limit w name origin c)
      (behindHead limit w' name origin' c) := by
  have hdue : State.Replaces x y ⟨w.add name origin false, .due .name⟩
      ⟨w'.add name origin' false, .due .name⟩ := .due (.walk (HeadReplaces.add h name false))
  unfold behindHead
  cases Token.ofChar c with
  | operator o =>
    cases o with
    | openBrace =>
      dsimp only
      rw [HeadReplaces.depth_eq h]
      split
      · exact .ok (.due (.walk (HeadReplaces.openBlock h name)))
      · exact .error _
    | closeBrace => exact agree_closeBlock (HeadReplaces.add h name true)
    | comma => exact .ok (.behind (HeadReplaces.add h name true))
    | newline => exact .ok (.behind (HeadReplaces.add h name true))
    | _ => exact .ok hdue
  | _ => exact .ok (.atom (.walk (HeadReplaces.add h name false)))

section Pipelines

variable {p p' : Pipeline}

/-- A pipeline belongs to the same statement in both. -/
theorem Pipeline.Replaces.statement_eq (h : Beside x y (Pipeline.Replaces x y) w p w' p') :
    p.statement = p'.statement := by
  cases h with
  | walk h => rfl
  | other h => cases h <;> rfl

/-- Another processor is put behind a pipeline in which a value is replaced. -/
theorem Pipeline.Replaces.add (h : Pipeline.Replaces x y p p') (processor : Processor) :
    Pipeline.Replaces x y (p.add processor) (p'.add processor) := by
  cases h with
  | params h => exact .params h
  | processors h => exact .processors (h.append_right _)

/-- A processor with a replaced argument is put behind a pipeline. -/
theorem Pipeline.replaces_add (p : Pipeline) {name : String} {vs vs' : List Value}
    (h : ReplacesOne (Value.Replaces x y) vs vs') :
    Pipeline.Replaces x y (p.add ⟨name, vs⟩) (p.add ⟨name, vs'⟩) :=
  .processors (.concat _ (.args h))

/-- A pipeline in which a value is replaced becomes an origin in which it is. -/
theorem Pipeline.Replaces.origin (h : Pipeline.Replaces x y p p') :
    HeadReplaces x y (some p.origin) (some p'.origin) := by
  cases h with
  | params h => exact .origin (.type (.params h))
  | processors h =>
    -- neither pipeline is empty, so both are written out
    unfold Pipeline.origin
    rw [if_neg h.ne_nil.1, if_neg h.ne_nil.2]
    exact .origin (.type (.processors h))

/-- Behind a processor, a character leads to the same in both. -/
theorem agree_behindPipeline (h : Beside x y (Pipeline.Replaces x y) w p w' p') :
    Agree (State.Replaces x y) (behindPipeline limit w p c) (behindPipeline limit w' p' c) := by
  unfold behindPipeline
  rw [Pipeline.Replaces.statement_eq h]
  split
  · exact .ok (.due (h.map .processor))
  · exact agree_behindHead (h.map Pipeline.Replaces.origin) _

/-- Behind a processor, the end of the text leads to the same in both. -/
theorem agree_finishPipeline (h : Beside x y (Pipeline.Replaces x y) w p w' p') :
    Agree (ReplacesOne (Statement.Replaces x y))
      (finish (w.add p.statement (some p.origin) false))
      (finish (w'.add p'.statement (some p'.origin) false)) := by
  rw [Pipeline.Replaces.statement_eq h]
  exact agree_finish (HeadReplaces.add (h.map Pipeline.Replaces.origin) _ false)

end Pipelines

/-! ### Items -/

section Items

variable {items items' : Items} {v v' : Value}

/-- What is due behind an item, in the list that it is an item of. -/
theorem ItemReplaces.more (h : Beside x y (ItemReplaces x y) w (items, v) w' (items', v')) :
    State.Replaces x y ⟨w, items.more v⟩ ⟨w', items'.more v'⟩ := by
  cases h with
  | walk h =>
    cases items with
    | params statement type before key => exact .due (.walk h)
    | args p name before => exact .item (.walk h)
  | other h =>
    cases h with
    | items h =>
      -- the value is put behind the items before it
      cases h with
      | params h => exact .due (.other (.key (h.append_right _)))
      | pipeline h => exact .item (.other (.pipeline h))
      | args h => exact .item (.other (.args (h.append_right _)))
    | value h =>
      cases items with
      | params statement type before key => exact .due (.other (.key (.concat _ (.value h))))
      | args p name before => exact .item (.other (.args (.concat _ h)))

/-- The value is the last item of its list, which is put behind the pipeline. -/
theorem ItemReplaces.close (h : ItemReplaces x y (items, v) (items', v')) :
    Pipeline.Replaces x y (items.close v) (items'.close v') := by
  cases h with
  | items h =>
    cases h with
    | params h => exact .params (h.append_right _)
    | pipeline h => exact h.add _
    | args h => exact Pipeline.replaces_add _ (h.append_right _)
  | value h =>
    cases items with
    | params statement type before key => exact .params (.concat _ (.value h))
    | args p name before => exact Pipeline.replaces_add _ (.concat _ h)

/-- Behind a value, a character leads to the same in both, since it is not compared with the
value. -/
theorem agree_endItem (h : Beside x y (ItemReplaces x y) w (items, v) w' (items', v')) :
    Agree (State.Replaces x y) (endItem w items v c) (endItem w' items' v' c) := by
  unfold endItem
  split
  · exact .ok (ItemReplaces.more h)
  · exact .ok (.behindList (h.map (f := fun p => p.1.close p.2) ItemReplaces.close))
  · exact .error _

end Items

/-! ### Atoms -/

section Atoms

variable {role role' : Role} {items items' : Items}

/-- An atom starts in both or in neither. -/
theorem agree_startAtom (h : Beside x y (Role.Replaces x y) w role w' role') :
    Agree (State.Replaces x y) (startAtom w role c) (startAtom w' role' c) := by
  unfold startAtom
  split
  · exact .error _
  · exact .ok (.atom h)

/-- A value starts in both or in neither. -/
theorem agree_startValue (h : Beside x y (Items.Replaces x y) w items w' items') :
    Agree (State.Replaces x y) (startValue w items c) (startValue w' items' c) := by
  unfold startValue
  split
  · exact .ok (.literal h)
  · exact agree_startAtom (h.map .plain)

/-- What comes behind an atom is decided by the operator and the atom alone. -/
theorem agree_endAtom (h : Beside x y (Role.Replaces x y) w role w' role') (a : String) :
    Agree (State.Replaces x y) (endAtom limit w role a c) (endAtom limit w' role' a c) := by
  unfold endAtom
  cases h with
  | walk h =>
    -- the role is the same, and with it the branch that is taken
    cases role with
    | name =>
      dsimp only
      split
      · exact .ok (.due (.walk (h.visit a)))
      · exact agree_behindHead (.walk (h.visit a)) a
    | origin statement =>
      dsimp only
      split
      · exact agree_behindHead (.walk h) statement
      · split
        · exact .ok (.due (.walk h))
        · exact .ok (.due (.walk h))
        · split
          · exact agree_behindHead (.walk h) statement
          · exact .error _
    | key statement type before =>
      dsimp only
      split
      · exact .ok (.behindList (.walk h))
      · exact .ok (.value (.walk h))
      · exact .error _
    | plain items =>
      dsimp only
      split
      · exact .ok (.due (.walk h))
      · exact agree_endItem (.walk h)
    | index items base =>
      dsimp only
      split
      · exact .ok (.behindValue (.walk h))
      · exact .error _
    | processor p =>
      dsimp only
      split
      · exact .ok (.value (.walk h))
      · exact agree_behindPipeline (.walk h)
  | other h =>
    -- only some roles hold values, and the branch depends on none of them
    cases h with
    | key h =>
      dsimp only
      split
      · exact .ok (.behindList (.other (.params (h.append_right _))))
      · exact .ok (.value (.other (.params h)))
      · exact .error _
    | plain h =>
      dsimp only
      split
      · exact .ok (.due (.other (.index h)))
      · exact agree_endItem (.other (.items h))
    | index h =>
      dsimp only
      split
      · exact .ok (.behindValue (.other (.items h)))
      · exact .error _
    | processor h =>
      dsimp only
      split
      · exact .ok (.value (.other (.pipeline h)))
      · exact agree_behindPipeline (.other (h.add _))

/-- At the end of an atom, the end of the text leads to the same in both. -/
theorem agree_finishAtom (h : Beside x y (Role.Replaces x y) w role w' role') (a : String) :
    Agree (ReplacesOne (Statement.Replaces x y)) (finishAtom w role a) (finishAtom w' role' a) := by
  unfold finishAtom
  cases h with
  | walk h =>
    split
    · split
      · exact agree_finish h
      · exact agree_finish (HeadReplaces.add (.walk (h.visit a)) a false)
    · split
      · exact .error _
      · split
        · exact agree_finish (HeadReplaces.add (.walk h) _ false)
        · exact agree_finish (HeadReplaces.add (.walk h) _ false)
    · rename_i p
      exact agree_finishPipeline (p := p.add ⟨a, []⟩) (.walk h)
    · exact .error _
  | other h =>
    cases h with
    | processor h => exact agree_finishPipeline (.other (h.add ⟨a, []⟩))
    | _ => exact .error _

end Atoms

/-! ### Steps and runs -/

/-- A character leads from states that are the same up to one scalar to such states, or it is
refused in both for the same reason. -/
theorem agree_next (h : State.Replaces x y σ σ') (limit : Nat) (c : Char) :
    Agree (State.Replaces x y) (σ.next limit c) (σ'.next limit c) := by
  -- no step looks at a value that has been read, so each takes the same branch in both
  unfold State.next
  cases h with
  | due h =>
    dsimp only
    split
    · exact .ok (.due h)
    · exact agree_startAtom h
  | atom h =>
    dsimp only
    split
    · exact agree_endAtom h _
    · exact .ok (.atom h)
  | value h =>
    dsimp only
    split
    · exact .ok (.value h)
    · split
      · exact .ok (.due (h.map .plain))
      · exact agree_startValue h
  | item h =>
    dsimp only
    split
    · exact .ok (.item h)
    · exact agree_startValue h
  | literal h =>
    dsimp only
    split
    · exact .ok (.behindValue (h.map (f := (·, _)) .items))
    · exact .ok (.literal h)
  | behindValue h =>
    dsimp only
    split
    · exact .ok (.behindValue h)
    · exact agree_endItem h
  | behindList h =>
    dsimp only
    split
    · exact .ok (.behindList h)
    · exact agree_behindPipeline h
  | behind h =>
    dsimp only
    split
    · exact .ok (.behind h)
    · split
      · exact agree_closeBlock h
      · exact agree_startAtom (.walk h)

/-- The end of the text leads to the same in both. -/
theorem agree_ending (h : State.Replaces x y σ σ') :
    Agree (ReplacesOne (Statement.Replaces x y)) σ.ending σ'.ending := by
  unfold State.ending
  cases h with
  | due h => exact agree_finishAtom h _
  | atom h => exact agree_finishAtom h _
  | behindList h => exact agree_finishPipeline h
  | behind h => exact agree_finish h
  | _ => exact .error _

/-- A text leads to the same in both, or it is refused at the same character for the same reason. -/
theorem agree_feed (h : State.Replaces x y σ σ') (limit : Nat) (s : List Char) :
    Agree (State.Replaces x y) (feed limit σ s) (feed limit σ' s) := by
  -- on the text, for all states that are the same up to one scalar
  induction s generalizing σ σ' with
  | nil => exact .ok h
  | cons c s ih =>
    have hnext := agree_next h limit c
    -- what the character leads to matters only as far as `Agree` tells
    unfold feed
    revert hnext
    generalize σ.next limit c = a
    generalize σ'.next limit c = a'
    rintro (hτ | cause)
    · exact ih hτ
    · exact .error _

/-- From states that are the same up to one scalar, a text goes on to the same statements up to that
scalar, or it is refused at the same place for the same reason. -/
theorem agree_read (h : State.Replaces x y σ σ') (limit : Nat) (s : List Char) :
    Agree (ReplacesOne (Statement.Replaces x y)) (read limit σ s) (read limit σ' s) := by
  have hfeed := agree_feed h limit s
  unfold read
  revert hfeed
  generalize feed limit σ s = a
  generalize feed limit σ' s = a'
  rintro (hτ | e)
  · exact (agree_ending hτ).mapError _
  · exact .error _

end Online

end FieldMapping
