import FieldMapping.Json
import FieldMapping.Statement

/-!
# Statements as JSON

A field mapping is handed on as a JSON array with an object for each statement. A part that is
absent has no field in the object, an empty one has an empty array; an indexed reference is an array
of its base and its index. The fields of every object are in the order of their names.
-/

namespace FieldMapping

/-- A text, or an array of base and index. -/
def Value.toJson : Value → Json
  | scalar text => .text text
  | indexed base index => .array [.text base, .text index]

/-- An object with the key and, where there is one, the value. -/
def Param.toJson (p : Param) : Json :=
  .object (("key", .text p.key) :: match p.value with
    | none => []
    | some v => [("value", v.toJson)])

/-- An object with the name and the arguments. -/
def Processor.toJson (p : Processor) : Json :=
  .object [("name", .text p.name), ("params", .array (p.args.map Value.toJson))]

/-- An object with the name and, where written, the parameters and the processors. -/
def TypeRef.toJson (t : TypeRef) : Json :=
  let params := match t.params with
    | none => []
    | some ps => [("param", .array (ps.map Param.toJson))]
  let processors := match t.processors with
    | none => []
    | some ps => [("processors", .array (ps.map Processor.toJson))]
  .object (("name", .text t.name) :: (params ++ processors))

namespace Statement

mutual

/-- An object with the name and, where written, the origin and the block. -/
def toJson : Statement → Json
  | ⟨name, origin, block⟩ =>
    let field := match origin with
      | some (.field f) => [("field", .text f)]
      | _ => []
    let type := match origin with
      | some (.type ref) => [("type", ref.toJson)]
      | _ => []
    .object (field ++ ("name", .text name) :: (blockToJson block ++ type))

/-- The field that holds the block of a statement. -/
def blockToJson : Option (List Statement) → List (String × Json)
  | none => []
  | some statements => [("props", .array (listToJson statements))]

/-- The objects for the statements of a list. -/
def listToJson : List Statement → List Json
  | [] => []
  | s :: statements => s.toJson :: listToJson statements

end

/-- The recursion through the lists of statements is the map it looks like. It is spelled out in the
definition only for the sake of its termination. -/
theorem listToJson_eq_map (statements : List Statement) :
    listToJson statements = statements.map toJson := by
  induction statements with
  | nil => rfl
  | cons s statements ih => rw [listToJson, ih, List.map_cons]

end Statement

/-- The JSON value for a field mapping. -/
def toJson (statements : List Statement) : Json :=
  .array (statements.map Statement.toJson)

/-- The compact JSON text for a field mapping. -/
def toJsonText (statements : List Statement) : String :=
  (toJson statements).compact

/-- The JSON text for a field mapping on lines of its own. -/
def toPrettyJsonText (statements : List Statement) : String :=
  (toJson statements).pretty

end FieldMapping
