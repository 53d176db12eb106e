/-
  Profiles: what a target language calls things.

  A profile maps primitive kinds to types and to the literals of their zero values, chooses the
  casing of names, and wraps types into the language's optionals, collections and boxes.
-/
import SchemaSymbols.Naming.Casing
import SchemaSymbols.Naming.Escaper
import SchemaSymbols.Shape.Basic

namespace SchemaSymbols

/-- The types of the primitive kinds; a language may lack one for large numbers. -/
structure PrimitiveTypes where
  string : String
  boolean : String
  byte : String
  short : String
  integer : String
  long : String
  float : String
  double : String
  bigInteger : Option String
  bigDecimal : Option String
  blob : String
  timestamp : String
  document : String
deriving DecidableEq, Repr, Inhabited

/-- The literals of zero values. -/
structure ZeroLiterals where
  integer : String
  float : String
  boolean : String
  string : String
deriving DecidableEq, Repr, Inhabited

/-- The conventions of a target language. -/
structure Profile where
  language : Language
  types : PrimitiveTypes
  zeros : ZeroLiterals
  memberCasing : Casing
  variantCasing : Casing
  operationCasing : Casing
  /-- The variant that stands for values unknown to the schema. -/
  fallbackVariant : String
  escapeStyle : EscapeStyle
  fileExtension : String
deriving DecidableEq, Repr, Inhabited

namespace Profile

/-! ## The profile of each language -/

/-- The profile of Swift. -/
def swift : Profile where
  language := .swift
  types := {
    string := "String", boolean := "Bool", byte := "Int8", short := "Int16", integer := "Int",
    long := "Int", float := "Float", double := "Double", bigInteger := none, bigDecimal := none,
    blob := "Data", timestamp := "Date", document := "Document" }
  zeros := { integer := "0", float := "0.0", boolean := "false", string := "\"\"" }
  memberCasing := .camel
  variantCasing := .camel
  operationCasing := .camel
  fallbackVariant := "sdkUnknown"
  escapeStyle := .backticks
  fileExtension := "swift"

/-- The profile of Rust. -/
def rust : Profile where
  language := .rust
  types := {
    string := "String", boolean := "bool", byte := "i8", short := "i16", integer := "i32",
    long := "i64", float := "f32", double := "f64", bigInteger := some "num_bigint::BigInt",
    bigDecimal := some "rust_decimal::Decimal", blob := "Vec<u8>",
    timestamp := "chrono::DateTime<chrono::Utc>", document := "serde_json::Value" }
  zeros := { integer := "0", float := "0.0", boolean := "false", string := "String::new()" }
  memberCasing := .snake
  variantCasing := .pascal
  operationCasing := .snake
  fallbackVariant := "Unknown"
  escapeStyle := .raw
  fileExtension := "rs"

/-- The profile of TypeScript. -/
def typescript : Profile where
  language := .typescript
  types := {
    string := "string", boolean := "boolean", byte := "number", short := "number",
    integer := "number", long := "number", float := "number", double := "number",
    bigInteger := some "bigint", bigDecimal := some "string", blob := "Uint8Array",
    timestamp := "Date", document := "unknown" }
  zeros := { integer := "0", float := "0", boolean := "false", string := "\"\"" }
  memberCasing := .camel
  variantCasing := .pascal
  operationCasing := .camel
  fallbackVariant := "SdkUnknown"
  escapeStyle := .leading "_"
  fileExtension := "ts"

/-- The profile of Python. -/
def python : Profile where
  language := .python
  types := {
    string := "str", boolean := "bool", byte := "int", short := "int", integer := "int",
    long := "int", float := "float", double := "float", bigInteger := some "int",
    bigDecimal := some "decimal.Decimal", blob := "bytes", timestamp := "datetime.datetime",
    document := "Any" }
  zeros := { integer := "0", float := "0.0", boolean := "False", string := "\"\"" }
  memberCasing := .snake
  variantCasing := .screamingSnake
  operationCasing := .snake
  fallbackVariant := "SDK_UNKNOWN"
  escapeStyle := .trailing "_"
  fileExtension := "py"

/-- The profile of a language. -/
def forLanguage : Language → Profile
  | .swift => swift
  | .rust => rust
  | .typescript => typescript
  | .python => python

/-! ## Types and literals -/

/-- The type of a primitive kind, if the language has one. -/
def primitiveType? (p : Profile) : PrimitiveKind → Option String
  | .string => some p.types.string
  | .boolean => some p.types.boolean
  | .byte => some p.types.byte
  | .short => some p.types.short
  | .integer => some p.types.integer
  | .long => some p.types.long
  | .float => some p.types.float
  | .double => some p.types.double
  | .bigInteger => p.types.bigInteger
  | .bigDecimal => p.types.bigDecimal
  | .blob => some p.types.blob
  | .timestamp => some p.types.timestamp
  | .document => some p.types.document

/-- The literal of a primitive kind's zero value; some kinds have none. -/
def zeroLiteral? (p : Profile) : PrimitiveKind → Option String
  | .byte => some p.zeros.integer
  | .short => some p.zeros.integer
  | .integer => some p.zeros.integer
  | .long => some p.zeros.integer
  | .float => some p.zeros.float
  | .double => some p.zeros.float
  | .boolean => some p.zeros.boolean
  | .string => some p.zeros.string
  | _ => none

/-- The escaper of a language, with further words to escape. -/
def escaper (p : Profile) (extra : List String) : Escaper :=
  ⟨p.escapeStyle, p.language.reservedWords ++ extra⟩

end Profile

/-! ## Wrapped types -/

namespace Language

/-- The type of values that may be absent. -/
def optionalOf (l : Language) (type : String) : String :=
  match l with
  | swift => type ++ "?"
  | rust => "Option<" ++ type ++ ">"
  | typescript => type ++ " | undefined"
  | python => "Optional[" ++ type ++ "]"

/-- The type of lists. -/
def listOf (l : Language) (type : String) : String :=
  match l with
  | swift => "[" ++ type ++ "]"
  | rust => "Vec<" ++ type ++ ">"
  | typescript => if type.toList.contains ' ' then "(" ++ type ++ ")[]" else type ++ "[]"
  | python => "list[" ++ type ++ "]"

/-- The type of sets. -/
def setOf (l : Language) (type : String) : String :=
  match l with
  | swift => "Set<" ++ type ++ ">"
  | rust => "std::collections::HashSet<" ++ type ++ ">"
  | typescript => "Set<" ++ type ++ ">"
  | python => "set[" ++ type ++ "]"

/-- The type of maps. -/
def mapOf (l : Language) (key value : String) : String :=
  match l with
  | swift => "[" ++ key ++ ": " ++ value ++ "]"
  | rust => "std::collections::HashMap<" ++ key ++ ", " ++ value ++ ">"
  | typescript => "Record<" ++ key ++ ", " ++ value ++ ">"
  | python => "dict[" ++ key ++ ", " ++ value ++ "]"

/-- The type of values kept behind a reference; where every value is, nothing changes. -/
def boxOf (l : Language) (type : String) : String :=
  match l with
  | swift => "Box<" ++ type ++ ">"
  | rust => "Box<" ++ type ++ ">"
  | typescript => type
  | python => type

end Language

end SchemaSymbols
