/-
  The JSON form of profiles and of what they consist of, and profiles with parts replaced.
-/
import SchemaSymbols.Json.Decode
import SchemaSymbols.Profile.Basic

namespace SchemaSymbols

/-- Reads a language. -/
def Language.ofJson? (v : Json) : Option Language := v.choice? .plain Language.byText

/-- Reads a casing. -/
def Casing.ofJson? (v : Json) : Option Casing := v.choice? .plain Casing.byText

namespace NamingOptions

/-- The JSON form of naming options. -/
def toJson (o : NamingOptions) : Json :=
  .object [
    ("acronyms", .array (o.acronyms.toList.map .string)),
    ("preserve_screaming_case", .bool o.keepCapitals)]

/-- Reads naming options. -/
def ofJson? (v : Json) : Option NamingOptions := do
  let absent : NamingOptions := {}
  let [acronyms, keepCapitals] ← v.record? ["acronyms", "preserve_screaming_case"] | none
  return {
    acronyms := ← Json.defaulted? absent.acronyms
      (fun v => (Json.list? Json.text? v).map Sorted.ofList) acronyms
    keepCapitals := ← Json.defaulted? absent.keepCapitals Json.bool? keepCapitals }

end NamingOptions

namespace EscapeStyle

/-- The JSON form of an escape style. -/
def toJson : EscapeStyle → Json
  | backticks => .string "backticks"
  | raw => .string "raw_prefix"
  | leading text => .object [("prefix", .string text)]
  | trailing text => .object [("suffix", .string text)]

/-- Reads an escape style. -/
def ofJson? (v : Json) : Option EscapeStyle :=
  match v with
  | .object [("prefix", text)] => text.text?.map leading
  | .object [("suffix", text)] => text.text?.map trailing
  | v => v.choice? .plain [("backticks", backticks), ("raw_prefix", raw)]

end EscapeStyle

namespace PrimitiveTypes

/-- The JSON form of the types of primitive kinds. -/
def toJson (t : PrimitiveTypes) : Json :=
  .object [
    ("string", .string t.string), ("boolean", .string t.boolean), ("byte", .string t.byte),
    ("short", .string t.short), ("integer", .string t.integer), ("long", .string t.long),
    ("float", .string t.float), ("double", .string t.double),
    ("big_integer", Json.ofText? t.bigInteger), ("big_decimal", Json.ofText? t.bigDecimal),
    ("blob", .string t.blob), ("timestamp", .string t.timestamp),
    ("document", .string t.document)]

/-- Reads the types of primitive kinds. -/
def ofJson? (v : Json) : Option PrimitiveTypes := do
  let [string, boolean, byte, short, integer, long, float, double, bigInteger, bigDecimal, blob,
    timestamp, document] ← v.record? ["string", "boolean", "byte", "short", "integer", "long",
      "float", "double", "big_integer", "big_decimal", "blob", "timestamp", "document"] | none
  let text := Json.required? Json.text?
  let nullable := Json.optional? Json.text?
  return {
    string := ← text string, boolean := ← text boolean, byte := ← text byte
    short := ← text short, integer := ← text integer, long := ← text long
    float := ← text float, double := ← text double
    bigInteger := ← nullable bigInteger, bigDecimal := ← nullable bigDecimal
    blob := ← text blob, timestamp := ← text timestamp, document := ← text document }

end PrimitiveTypes

namespace ZeroLiterals

/-- The JSON form of zero literals. -/
def toJson (z : ZeroLiterals) : Json :=
  .object [
    ("integer", .string z.integer), ("float", .string z.float), ("boolean", .string z.boolean),
    ("string", .string z.string)]

/-- Reads zero literals. -/
def ofJson? (v : Json) : Option ZeroLiterals := do
  let [integer, float, boolean, string] ←
    v.record? ["integer", "float", "boolean", "string"] | none
  let text := Json.required? Json.text?
  return {
    integer := ← text integer, float := ← text float, boolean := ← text boolean
    string := ← text string }

end ZeroLiterals

namespace Profile

/-- The fields of a profile's JSON form. -/
def fieldNames : List String :=
  ["language", "types", "defaults", "member_casing", "variant_casing", "operation_casing",
    "fallback_variant", "keyword_escape", "file_extension"]

/-- The JSON form of a profile. -/
def toJson (p : Profile) : Json :=
  .object [
    ("language", .string p.language.text), ("types", p.types.toJson),
    ("defaults", p.zeros.toJson), ("member_casing", .string p.memberCasing.text),
    ("variant_casing", .string p.variantCasing.text),
    ("operation_casing", .string p.operationCasing.text),
    ("fallback_variant", .string p.fallbackVariant), ("keyword_escape", p.escapeStyle.toJson),
    ("file_extension", .string p.fileExtension)]

/-- Reads a profile. -/
def ofJson? (v : Json) : Option Profile := do
  let [language, types, zeros, memberCasing, variantCasing, operationCasing, fallbackVariant,
    escapeStyle, fileExtension] ← v.record? fieldNames | none
  let casing := Json.required? Casing.ofJson?
  let text := Json.required? Json.text?
  return {
    language := ← Json.required? Language.ofJson? language
    types := ← Json.required? PrimitiveTypes.ofJson? types
    zeros := ← Json.required? ZeroLiterals.ofJson? zeros
    memberCasing := ← casing memberCasing
    variantCasing := ← casing variantCasing
    operationCasing := ← casing operationCasing
    fallbackVariant := ← text fallbackVariant
    escapeStyle := ← Json.required? EscapeStyle.ofJson? escapeStyle
    fileExtension := ← text fileExtension }

/-- The fields of one object with those of another put in their places. -/
def overlayFields (base upper : List (String × Json)) : List (String × Json) :=
  (base.map fun f => (f.1, (upper.lookup f.1).getD f.2))
    ++ upper.filter fun f => !Json.hasField base f.1

/-- One field of a profile with another value put over it: the types and literals are replaced
field by field, everything else as a whole. -/
def overlayField (name : String) (base upper : Json) : Json :=
  match base, upper with
  | .object b, .object o =>
    if name = "types" ∨ name = "defaults" then .object (overlayFields b o) else upper
  | _, _ => upper

/-- A profile with the fields of an object put in their places; `none` if the result is not a
profile. -/
def overlay? (p : Profile) (upper : Json) : Option Profile :=
  match p.toJson, upper with
  | .object base, .object upper =>
    ofJson? (.object (base.map fun f =>
      match upper.lookup f.1 with
      | some v => (f.1, overlayField f.1 f.2 v)
      | none => f))
  | _, _ => some p

end Profile

end SchemaSymbols
