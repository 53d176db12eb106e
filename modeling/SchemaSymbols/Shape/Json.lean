/-
  The JSON form of shapes.

  A node is an object that holds the identifier, the word for the kind under `type`, the fields of
  that kind and the tags.  What has a natural empty value may be left out: members, operations and
  errors, the sides of an operation, tags.  The kind may also be given by its position in the list
  of kinds.
-/
import SchemaSymbols.Shape.Basic

namespace SchemaSymbols

namespace EdgeKind

/-- The word for the role of a reference. -/
def word : EdgeKind → String
  | operation => "Operation"
  | input => "Input"
  | output => "Output"
  | error => "Error"
  | member => "Member"
  | element => "Element"
  | mapKey => "MapKey"
  | mapValue => "MapValue"

/-- The roles by their words. -/
def byWord : List (String × EdgeKind) :=
  [operation, input, output, error, member, element, mapKey, mapValue].map fun k => (k.word, k)

/-- Reads the role of a reference. -/
def ofJson? (v : Json) : Option EdgeKind := v.choice? .plain byWord

end EdgeKind

namespace Member

/-- The JSON form of a member. -/
def toJson (m : Member) : Json :=
  .object ([("name", .string m.name), ("target", m.target.toJson)] ++ TagSet.fields m.tags)

/-- Reads a member. -/
def ofJson? (v : Json) : Option Member := do
  let [name, target, tags] ← v.record? ["name", "target", "tags"] | none
  return {
    name := ← Json.required? Json.text? name
    target := ← Json.required? ShapeId.ofJson? target
    tags := ← Json.defaulted? .empty (TagSet.ofJson? .nested) tags }

end Member

namespace EnumValue

/-- The JSON form of a value of an enumeration. -/
def toJson (v : EnumValue) : Json :=
  .object [("name", .string v.name), ("value", .string v.value)]

/-- Reads a value of an enumeration. -/
def ofJson? (v : Json) : Option EnumValue := do
  let [name, value] ← v.record? ["name", "value"] | none
  return { name := ← Json.required? Json.text? name, value := ← Json.required? Json.text? value }

end EnumValue

namespace Shape

/-- The fields of a shape after its kind. -/
def fields : Shape → List (String × Json)
  | primitive kind => [("kind", .string kind.text)]
  | record members => [("members", .array (members.map Member.toJson))]
  | union members => [("members", .array (members.map Member.toJson))]
  | enum values => [("values", .array (values.map EnumValue.toJson))]
  | list element => [("member", element.toJson)]
  | set element => [("member", element.toJson)]
  | map key value => [("key", key.toJson), ("value", value.toJson)]
  | operation input output errors =>
    input.toList.map (fun id => ("input", id.toJson))
      ++ output.toList.map (fun id => ("output", id.toJson))
      ++ (if errors.isEmpty then [] else [("errors", .array (errors.map ShapeId.toJson))])
  | service operations => [("operations", .array (operations.map ShapeId.toJson))]

/-- The words for the kinds, in the order of their positions. -/
def words : List String :=
  ["primitive", "record", "union", "enum", "list", "set", "map", "operation", "service"]

/-- Reads the kind of a shape. -/
def word? (v : Json) : Option String :=
  match v with
  | .string s => if s ∈ words then some s else none
  | v => v.natural? >>= fun n => words[n]?

/-- Reads a shape of the kind `word` from the fields of its node. -/
def ofFields? (word : String) (fields : List (String × Json)) : Option Shape := do
  let field := Json.field? fields
  let list {α : Type} (read : Json → Option α) (name : String) : Option (List α) := do
    Json.defaulted? [] (Json.list? read) (← field name)
  match word with
  | "primitive" =>
    return primitive (← Json.required? (Json.choice? .nested PrimitiveKind.byText) (← field "kind"))
  | "record" => return record (← list Member.ofJson? "members")
  | "union" => return union (← list Member.ofJson? "members")
  | "enum" =>
    return enum (← Json.required? (Json.list? EnumValue.ofJson?) (← field "values"))
  | "list" => return .list (← Json.required? Member.ofJson? (← field "member"))
  | "set" => return set (← Json.required? Member.ofJson? (← field "member"))
  | "map" =>
    return map (← Json.required? Member.ofJson? (← field "key"))
      (← Json.required? Member.ofJson? (← field "value"))
  | "operation" =>
    return operation (← Json.optional? ShapeId.ofJson? (← field "input"))
      (← Json.optional? ShapeId.ofJson? (← field "output")) (← list ShapeId.ofJson? "errors")
  | "service" => return service (← list ShapeId.ofJson? "operations")
  | _ => none

end Shape

namespace Node

/-- The JSON form of a node. -/
def toJson (n : Node) : Json :=
  .object ([("id", n.id.toJson), ("type", .string n.shape.word)] ++ n.shape.fields
    ++ TagSet.fields n.tags)

/-- Reads a node around which `outer` arrays and objects stand, its own tags as `lenient` says.
All fields but the identifier and the tags are read as a whole before the kind says which of them
count. -/
def ofJson? (lenient : Json.Leniency) (outer : Nat) : Json → Option Node
  | .object fields => do
    let id ← Json.required? ShapeId.ofJson? (← Json.field? fields "id")
    let tags ← Json.defaulted? .empty (TagSet.ofJson? lenient) (← Json.field? fields "tags")
    let rest := fields.filter fun f => f.1 != "id" && f.1 != "tags"
    if rest.all fun f => f.2.readable (outer + 1) then
      let word ← Json.required? Shape.word? (← Json.field? rest "type")
      return { id, shape := ← Shape.ofFields? word rest, tags }
    else none
  | _ => none

end Node

end SchemaSymbols
