/-
  The JSON form of symbols and bindings.
-/
import SchemaSymbols.Json.Decode
import SchemaSymbols.Symbol.Basic

namespace SchemaSymbols

/-- The JSON form of a reference. -/
def SymbolRef.toJson (r : SymbolRef) : Json :=
  .object [
    ("shape", r.shape.toJson), ("namespace", .array (r.scope.map .string)),
    ("name", .string r.name)]

/-- The JSON form of a reference that may be missing. -/
def SymbolRef.optionalJson : Option SymbolRef → Json
  | none => .null
  | some r => r.toJson

namespace SymbolFacts

/-- The fields of a symbol, with the JSON form of its kind. -/
def fields (s : SymbolFacts) (kind : Json) : List (String × Json) :=
  [("shape", s.shape.toJson), ("display_name", .string s.displayName),
    ("namespace", .array (s.scope.map .string)), ("nullable", .bool s.nullable)]
    ++ s.default?.toList.map (fun d => ("default_value", .string d))
    ++ [("boxed", .bool s.boxed)]
    ++ s.file?.toList.map (fun f => ("declared_in_file", .string f))
    ++ [("dependencies", .array (s.dependencies.toList.map SymbolRef.toJson)),
      ("conformances", .array (s.conformances.map fun c => .string c.text)), ("kind", kind)]

end SymbolFacts

namespace SymbolKind

/-- The JSON form of a kind. -/
def toJson (k : SymbolKind) : Json :=
  let fields : List (String × Json) :=
    match k with
    | builtin primitive => [("primitive", .string primitive.text)]
    | record => []
    | union fallback => [("fallback", .string fallback)]
    | enum variants fallback =>
      let variants := variants.map fun v =>
        .object [("name", .string v.name), ("value", .string v.value)]
      [("variants", .array variants), ("fallback", .string fallback)]
    | list element kind sparse =>
      [("element", .object (element.fields kind.toJson)), ("sparse", .bool sparse)]
    | set element kind sparse =>
      [("element", .object (element.fields kind.toJson)), ("sparse", .bool sparse)]
    | map key keyKind value valueKind sparse =>
      [("key", .object (key.fields keyKind.toJson)),
        ("value", .object (value.fields valueKind.toJson)), ("sparse", .bool sparse)]
    | operation input output errors =>
      [("input", SymbolRef.optionalJson input), ("output", SymbolRef.optionalJson output),
        ("errors", .array (errors.map SymbolRef.toJson))]
    | service operations => [("operations", .array (operations.map SymbolRef.toJson))]
  .object (("kind", .string k.word) :: fields)

end SymbolKind

namespace Symbol

/-- The JSON form of a symbol. -/
def toJson (s : Symbol) : Json := .object (s.fields s.kind.toJson)

/-- The JSON form of a symbol, with its type in full. -/
def toJsonWithType (s : Symbol) (l : Language) : Json :=
  .object (s.fields s.kind.toJson ++ [("type_expr", .string (s.typeExpr l))])

end Symbol

/-- The JSON form of a binding. -/
def Binding.toJson (b : Binding) (l : Language) : Json :=
  .object [
    ("id", b.id.toJson), ("name", .string b.name), ("wire_name", .string b.wireName),
    ("sensitive", .bool b.sensitive), ("type", .string (b.symbol.typeExpr l)),
    ("shape", b.symbol.shape.toJson), ("nullable", .bool b.symbol.nullable),
    ("default", Json.ofText? b.symbol.default?), ("boxed", .bool b.symbol.boxed),
    ("kind", .string b.symbol.kind.word)]

end SchemaSymbols
