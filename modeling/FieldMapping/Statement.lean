import FieldMapping.Token

/-!
# Statements

A field mapping is a list of statements. A statement names an output key, says where its value
comes from (its **origin**: a field of the source, or a reference to a provider type) and may hold
a block of further statements in the scope of that origin:

    $root: Member {
      fullName: name,
      street: Address(of: $member, kind: "home") | Trim
    }

Absent and empty parts are told apart everywhere: a type reference without a parameter list is not
one with an empty list. `Statement.recOnList` is the induction principle that goes through blocks,
and equality of statements is decidable.
-/

namespace FieldMapping

/-! ### Values -/

/-- The value of a parameter or an argument. -/
inductive Value where
  /-- A plain value, or a quoted literal together with its quotes. -/
  | scalar (text : String)
  /-- A one-level reference `base[index]`. -/
  | indexed (base index : String)
  deriving DecidableEq, Repr

namespace Value

/-- The text of a scalar. -/
def scalar? : Value → Option String
  | scalar text => some text
  | indexed _ _ => none

/-- The base and the index of an indexed reference. -/
def indexed? : Value → Option (String × String)
  | scalar _ => none
  | indexed base index => some (base, index)

/-- Whether a value is a scalar of at least two characters that starts and ends with the same
quote. -/
def isQuoted : Value → Bool
  | scalar text =>
    let s := text.toList
    2 ≤ s.length && s.head? == s.getLast? && s.head?.any isQuote
  | indexed _ _ => false

end Value

/-! ### Type references -/

/-- A keyed parameter of a type reference, `key` or `key: value`. -/
structure Param where
  key : String
  value : Option Value := none
  deriving DecidableEq, Repr

/-- One processor of a pipeline, with its positional arguments. -/
structure Processor where
  name : String
  args : List Value := []
  deriving DecidableEq, Repr

/-- A reference to a provider type, with its parameter list and its pipeline where written. -/
structure TypeRef where
  name : String
  params : Option (List Param) := none
  processors : Option (List Processor) := none
  deriving DecidableEq, Repr

/-- Where the value of a statement comes from. -/
inductive Origin where
  /-- A field of the source. -/
  | field (name : String)
  /-- A provider type. -/
  | type (ref : TypeRef)
  deriving DecidableEq, Repr

/-! ### Statements -/

/-- A statement: its output key, and its origin and its block where written. -/
structure Statement where
  name : String
  origin : Option Origin := none
  block : Option (List Statement) := none

namespace Statement

/-- The statement with `name` taken from a source field. -/
def withField (s : Statement) (name : String) : Statement :=
  { s with origin := some (.field name) }

/-- The statement with its value read from a provider type. -/
def withType (s : Statement) (ref : TypeRef) : Statement :=
  { s with origin := some (.type ref) }

/-- The statement with a block. -/
def withBlock (s : Statement) (statements : List Statement) : Statement :=
  { s with block := some statements }

/-- The source field of a statement that has one. -/
def field? (s : Statement) : Option String :=
  match s.origin with
  | some (.field name) => some name
  | _ => none

/-- The type reference of a statement that has one. -/
def type? (s : Statement) : Option TypeRef :=
  match s.origin with
  | some (.type ref) => some ref
  | _ => none

@[simp] theorem field?_withField (s : Statement) (name : String) :
    (s.withField name).field? = some name := rfl

@[simp] theorem type?_withType (s : Statement) (ref : TypeRef) :
    (s.withType ref).type? = some ref := rfl

/-! ### Induction -/

/-- Induction over a list of statements: a property of lists holds of every list if it holds of the
empty one, and goes from a block and a list to the list that starts with a statement with that
block. -/
theorem recOnList {P : List Statement → Prop} (statements : List Statement) (nil : P [])
    (cons : ∀ name origin block rest, (∀ inner, block = some inner → P inner) → P rest →
      P (⟨name, origin, block⟩ :: rest)) : P statements :=
  @Statement.rec_2 (fun s => ∀ rest, P rest → P (s :: rest))
    (fun block => ∀ inner, block = some inner → P inner) P
    (fun name origin block hblock rest hrest => cons name origin block rest hblock hrest)
    (fun _ h => nomatch h) (fun _ h _ e => Option.some.inj e ▸ h)
    nil (fun _ rest hs hrest => hs rest hrest) statements

/-! ### Decidable equality -/

mutual

/-- Decides whether two statements are equal. -/
def decEq : (a b : Statement) → Decidable (a = b)
  | ⟨n, o, b⟩, ⟨n', o', b'⟩ =>
    if hn : n = n' then
      if ho : o = o' then
        match decEqBlock b b' with
        | .isTrue hb => .isTrue (by rw [hn, ho, hb])
        | .isFalse hb => .isFalse (by simp [hb])
      else .isFalse (by simp [ho])
    else .isFalse (by simp [hn])

/-- Decides whether two blocks, either of which may be absent, are equal. -/
def decEqBlock : (a b : Option (List Statement)) → Decidable (a = b)
  | none, none => .isTrue rfl
  | none, some _ => .isFalse (by simp)
  | some _, none => .isFalse (by simp)
  | some a, some b =>
    match decEqList a b with
    | .isTrue h => .isTrue (by rw [h])
    | .isFalse h => .isFalse (by simp [h])

/-- Decides whether two lists of statements are equal. -/
def decEqList : (a b : List Statement) → Decidable (a = b)
  | [], [] => .isTrue rfl
  | [], _ :: _ => .isFalse (by simp)
  | _ :: _, [] => .isFalse (by simp)
  | s :: a, t :: b =>
    match decEq s t with
    | .isTrue hs =>
      match decEqList a b with
      | .isTrue h => .isTrue (by rw [hs, h])
      | .isFalse h => .isFalse (by simp [h])
    | .isFalse hs => .isFalse (by simp [hs])

end

instance : DecidableEq Statement := decEq

end Statement

end FieldMapping
