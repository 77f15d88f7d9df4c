import FieldMapping.Proofs.Json.Spacing
import FieldMapping.Statement.Json
import Mathlib.Data.String.Basic

/-!
# Statements from JSON

The JSON forms of a field mapping lose nothing (`json_faithful`). `ofJson?` takes the value of a
field mapping apart again and finds the statements (`ofJson?_toJson`); a part that is absent is one
whose field is missing, which no present part is written as. Together with what is known of written
JSON, every form of a field mapping belongs to that field mapping alone.
-/

namespace FieldMapping

namespace Json

/-! ### Parts of a value -/

/-- The text of a literal. -/
def text? : Json → Option String
  | .text s => some s
  | _ => none

/-- The value of a field of an object. -/
def field? (key : String) : Json → Option Json
  | .object fs => fs.lookup key
  | _ => none

/-- The items of an array, each read by `f`. -/
def listOf? {α : Type} (f : Json → Option α) : Json → Option (List α)
  | .array vs => vs.mapM f
  | _ => none

/-- The keys of every object in the value ascend, so that it has no key twice. -/
inductive KeysAscend : Json → Prop
  | text (s : String) : KeysAscend (.text s)
  | array {vs : List Json} (h : ∀ v ∈ vs, KeysAscend v) : KeysAscend (.array vs)
  | object {fs : List (String × Json)} (hkeys : (fs.map Prod.fst).Pairwise (· < ·))
      (h : ∀ f ∈ fs, KeysAscend f.2) : KeysAscend (.object fs)

end Json

open Json (text? field? listOf?)

/-! ### Taking a value apart -/

/-- The value of a parameter or an argument. -/
def Value.ofJson? : Json → Option Value
  | .text text => some (.scalar text)
  | .array [.text base, .text index] => some (.indexed base index)
  | _ => none

/-- A keyed parameter. -/
def Param.ofJson? (v : Json) : Option Param := do
  let key ← (v.field? "key").bind text?
  let value ← (v.field? "value").mapM Value.ofJson?
  some ⟨key, value⟩

/-- A processor with its arguments. -/
def Processor.ofJson? (v : Json) : Option Processor := do
  let name ← (v.field? "name").bind text?
  let args ← (v.field? "params").bind (listOf? Value.ofJson?)
  some ⟨name, args⟩

/-- A type reference. -/
def TypeRef.ofJson? (v : Json) : Option TypeRef := do
  let name ← (v.field? "name").bind text?
  let params ← (v.field? "param").mapM (listOf? Param.ofJson?)
  let processors ← (v.field? "processors").mapM (listOf? Processor.ofJson?)
  some ⟨name, params, processors⟩

/-- The origin of a statement: a field or a type, but not both. -/
def Origin.ofJson? (v : Json) : Option (Option Origin) :=
  match v.field? "field", v.field? "type" with
  | none, none => some none
  | some f, none => (text? f).map fun f => some (.field f)
  | none, some t => (TypeRef.ofJson? t).map fun ref => some (.type ref)
  | some _, some _ => none

namespace Statement

mutual

/-- A statement with its block. -/
def ofJson? : Json → Option Statement
  | .object fs => do
    let name ← (Json.field? "name" (.object fs)).bind text?
    let origin ← Origin.ofJson? (.object fs)
    let block ← blockOfJson? fs
    some ⟨name, origin, block⟩
  | _ => none

/-- The block of a statement, among the fields of its object. -/
def blockOfJson? : List (String × Json) → Option (Option (List Statement))
  | [] => some none
  | (key, .array vs) :: fs => if key = "props" then (listOfJson? vs).map some else blockOfJson? fs
  | (key, _) :: fs => if key = "props" then none else blockOfJson? fs

/-- The statements of an array. -/
def listOfJson? : List Json → Option (List Statement)
  | [] => some []
  | v :: vs => do
    let s ← ofJson? v
    let ss ← listOfJson? vs
    some (s :: ss)

end

end Statement

/-- The field mapping for a JSON value. -/
def ofJson? : Json → Option (List Statement)
  | .array vs => Statement.listOfJson? vs
  | _ => none

/-! ### Nothing is lost -/

/-- The items of a list are found again if each of them is. -/
theorem listOf?_array_map {α : Type} {f : Json → Option α} {g : α → Json}
    (h : ∀ a, f (g a) = some a) (as : List α) : listOf? f (.array (as.map g)) = some as := by
  show (as.map g).mapM f = some as
  induction as with
  | nil => rfl
  | cons a as ih => simp [h, ih]

/-- A value is found again. -/
theorem Value.ofJson?_toJson (v : Value) : ofJson? v.toJson = some v := by
  cases v <;> rfl

/-- A parameter is found again, with a value or without one. -/
theorem Param.ofJson?_toJson (p : Param) : ofJson? p.toJson = some p := by
  obtain ⟨key, value⟩ := p
  cases value with
  | none => rfl
  | some v => simp [ofJson?, toJson, field?, text?, List.lookup_cons, Value.ofJson?_toJson]

/-- A processor is found again. -/
theorem Processor.ofJson?_toJson (p : Processor) : ofJson? p.toJson = some p := by
  simp [ofJson?, toJson, field?, text?, List.lookup_cons, listOf?_array_map Value.ofJson?_toJson]

/-- A type is found again. Parameters that are absent are told apart from an empty list of them. -/
theorem TypeRef.ofJson?_toJson (ref : TypeRef) : ofJson? ref.toJson = some ref := by
  obtain ⟨name, params, processors⟩ := ref
  cases params <;> cases processors <;>
    simp [ofJson?, toJson, field?, text?, List.lookup_cons, listOf?_array_map Param.ofJson?_toJson,
      listOf?_array_map Processor.ofJson?_toJson]

namespace Statement

variable {name : String} {origin : Option Origin} {block : Option (List Statement)}

/-- The origin of a statement is found again in the object of the statement. -/
theorem ofJson?_origin : Origin.ofJson? (toJson ⟨name, origin, block⟩) = some origin := by
  rcases origin with _ | f | ref
  · cases block <;> rfl
  · cases block <;> rfl
  · have htype : Origin.ofJson? (toJson ⟨name, some (.type ref), block⟩) =
        (TypeRef.ofJson? ref.toJson).map fun ref => some (.type ref) := by
      cases block <;> rfl
    rw [htype, TypeRef.ofJson?_toJson]
    rfl

/-- A statement is found in its object if its block is. -/
theorem ofJson?_toJson_of_block
    (h : ∀ inner, block = some inner → listOfJson? (listToJson inner) = some inner) :
    ofJson? (toJson ⟨name, origin, block⟩) = some ⟨name, origin, block⟩ := by
  -- whichever fields are there, name, origin and block are looked up one by one
  have hparts : ofJson? (toJson ⟨name, origin, block⟩) =
      (Origin.ofJson? (toJson ⟨name, origin, block⟩)).bind fun origin =>
        (block.mapM fun inner => listOfJson? (listToJson inner)).bind fun block =>
          some ⟨name, origin, block⟩ := by
    rcases origin with _ | f | ref <;> cases block <;> rfl
  rw [hparts, ofJson?_origin]
  cases block with
  | none => rfl
  | some inner =>
    rw [Option.mapM_some, h inner rfl]
    rfl

/-- Statements are found again, and so are those of their blocks. -/
theorem listOfJson?_listToJson (ts : List Statement) : listOfJson? (listToJson ts) = some ts := by
  -- on the statements and, for each of them, those of its block
  induction ts using recOnList with
  | nil => rfl
  | cons name origin block rest hblock hrest =>
    simp [listToJson, listOfJson?, ofJson?_toJson_of_block hblock, hrest]

end Statement

/-- The field mapping is found in its value. -/
theorem ofJson?_toJson (ts : List Statement) : ofJson? (toJson ts) = some ts := by
  rw [toJson, ← Statement.listToJson_eq_map]
  exact Statement.listOfJson?_listToJson ts

/-- No two field mappings have the same value. -/
theorem toJson_injective : Function.Injective toJson := by
  intro ts us h
  exact Option.some.inj (by rw [← ofJson?_toJson, h, ofJson?_toJson])

/-! ### The keys of objects -/

open Json (KeysAscend)

/-- A value has no objects in it. -/
theorem Value.keysAscend (v : Value) : v.toJson.KeysAscend := by
  cases v with
  | scalar text => exact .text text
  | indexed base index => exact .array (by simp [KeysAscend.text])

/-- The keys ascend in an array if they do in each of its items. -/
theorem Json.KeysAscend.array_map {α : Type} {g : α → Json} (h : ∀ a, (g a).KeysAscend)
    (as : List α) : (Json.array (as.map g)).KeysAscend :=
  .array fun _ hv => by
    obtain ⟨a, -, rfl⟩ := List.mem_map.1 hv
    exact h a

/-- The keys of a parameter ascend. -/
theorem Param.keysAscend (p : Param) : p.toJson.KeysAscend := by
  obtain ⟨key, value⟩ := p
  have hkeys : ["key", "value"].Pairwise (· < ·) := by decide
  cases value with
  | none => exact .object (hkeys.sublist (by simp)) (by simp [KeysAscend.text])
  | some v => exact .object hkeys (by simp [KeysAscend.text, Value.keysAscend])

/-- The keys of a processor ascend. -/
theorem Processor.keysAscend (p : Processor) : p.toJson.KeysAscend := by
  have hkeys : ["name", "params"].Pairwise (· < ·) := by decide
  exact .object hkeys (by simp [KeysAscend.text, KeysAscend.array_map Value.keysAscend])

/-- The keys of a type ascend, whichever of them are there. -/
theorem TypeRef.keysAscend (ref : TypeRef) : ref.toJson.KeysAscend := by
  obtain ⟨name, params, processors⟩ := ref
  have hkeys : ["name", "param", "processors"].Pairwise (· < ·) := by decide
  refine .object (hkeys.sublist ?_) ?_
  · cases params <;> cases processors <;> simp
  · cases params <;> cases processors <;>
      simp [KeysAscend.text, KeysAscend.array_map Param.keysAscend,
        KeysAscend.array_map Processor.keysAscend]

namespace Statement

/-- The keys of a statement ascend if those in its block do. -/
theorem keysAscend_of_block {name : String} {origin : Option Origin}
    {block : Option (List Statement)}
    (h : ∀ inner, block = some inner → ∀ v ∈ listToJson inner, v.KeysAscend) :
    (toJson ⟨name, origin, block⟩).KeysAscend := by
  -- the keys that are there are some of these, in this order
  have hkeys : ["field", "name", "props", "type"].Pairwise (· < ·) := by decide
  cases block with
  | none =>
    rcases origin with _ | f | ref <;> refine .object (hkeys.sublist ?_) ?_ <;>
      simp [blockToJson, KeysAscend.text, TypeRef.keysAscend]
  | some inner =>
    have hinner := KeysAscend.array (h inner rfl)
    rcases origin with _ | f | ref <;> refine .object (hkeys.sublist ?_) ?_ <;>
      simp [blockToJson, KeysAscend.text, TypeRef.keysAscend, hinner]

/-- The keys of statements ascend, and so do those in their blocks. -/
theorem keysAscend_listToJson (ts : List Statement) : ∀ v ∈ listToJson ts, v.KeysAscend := by
  induction ts using recOnList with
  | nil => exact nofun
  | cons name origin block rest hblock hrest =>
    rw [listToJson]
    exact List.forall_mem_cons.2 ⟨keysAscend_of_block hblock, hrest⟩

end Statement

/-- The keys ascend in the value of a field mapping. -/
theorem keysAscend_toJson (ts : List Statement) : (toJson ts).KeysAscend := by
  rw [toJson, ← Statement.listToJson_eq_map]
  exact .array (Statement.keysAscend_listToJson ts)

/-! ### The forms of a field mapping -/

/-- No two field mappings have the same compact form. -/
theorem toJsonText_injective : Function.Injective toJsonText := by
  intro ts us h
  have hread : Json.Reads (toJsonText us) (toJson ts) :=
    h ▸ (Json.reads_compact_iff (toJson ts) (toJson ts)).2 rfl
  exact toJson_injective ((Json.reads_compact_iff _ _).1 hread)

/-- No two field mappings have the same pretty form. -/
theorem toPrettyJsonText_injective : Function.Injective toPrettyJsonText := by
  intro ts us h
  have hread : Json.Reads (toPrettyJsonText us) (toJson ts) :=
    h ▸ (Json.reads_pretty_iff (toJson ts) (toJson ts)).2 rfl
  exact toJson_injective ((Json.reads_pretty_iff _ _).1 hread)

/-- **The JSON forms lose nothing.** Both written forms of a field mapping are JSON for its value
and for no other, and no object in it has a key twice. The compact form has no control characters,
and it is what is left of the pretty form without the white space outside of literals. The field
mapping is found again in its value, so that neither two values nor two texts of different field
mappings are the same. -/
theorem json_faithful (ts : List Statement) :
    (∀ v, Json.Reads (toJsonText ts) v ↔ v = toJson ts) ∧
    (∀ v, Json.Reads (toPrettyJsonText ts) v ↔ v = toJson ts) ∧
    (toJson ts).KeysAscend ∧
    (∀ c ∈ (toJsonText ts).toList, 0x20 ≤ c.toNat) ∧
    Json.stripSpace .outside (toPrettyJsonText ts).toList = (toJsonText ts).toList ∧
    ofJson? (toJson ts) = some ts ∧
    ∀ us, (toJsonText ts = toJsonText us ↔ ts = us) ∧
      (toPrettyJsonText ts = toPrettyJsonText us ↔ ts = us) ∧
      (toJson ts = toJson us ↔ ts = us) :=
  ⟨Json.reads_compact_iff _, Json.reads_pretty_iff _, keysAscend_toJson ts,
    Json.printable_compact _, Json.stripSpace_pretty _, ofJson?_toJson ts,
    fun _ => ⟨toJsonText_injective.eq_iff, toPrettyJsonText_injective.eq_iff,
      toJson_injective.eq_iff⟩⟩

end FieldMapping
