/-
  JSON values as they stand in a text.

  An object keeps its fields in the order they were written, repetitions included, and a number
  keeps its spelling: what a repetition or a spelling means is for the reader of the value to say.
  A literal can follow the grammar and still denote nothing (a number beyond the range of double
  precision, a string with an unpaired surrogate).  Such a literal is `invalid`: harmless where a
  value is skipped, an error wherever one is read.
-/

namespace SchemaSymbols

/-- A JSON value. -/
inductive Json where
  | null
  | bool (value : Bool)
  | number (spelling : String)
  | string (text : String)
  | array (items : List Json)
  | object (fields : List (String × Json))
  | invalid
deriving Inhabited

namespace Json

mutual

/-- How deep arrays and objects are nested in a value. -/
def depth : Json → Nat
  | array items => depthItems items + 1
  | object fields => depthFields fields + 1
  | _ => 0

/-- The greatest depth in a list of values. -/
def depthItems : List Json → Nat
  | [] => 0
  | v :: rest => max (depth v) (depthItems rest)

/-- The greatest depth in a list of fields. -/
def depthFields : List (String × Json) → Nat
  | [] => 0
  | (_, v) :: rest => max (depth v) (depthFields rest)

end

mutual

/-- Whether every literal in a value denotes something. -/
def denotes : Json → Bool
  | array items => denotesItems items
  | object fields => denotesFields fields
  | invalid => false
  | _ => true

/-- Whether every literal in a list of values denotes something. -/
def denotesItems : List Json → Bool
  | [] => true
  | v :: rest => denotes v && denotesItems rest

/-- Whether every literal in a list of fields denotes something. -/
def denotesFields : List (String × Json) → Bool
  | [] => true
  | (_, v) :: rest => denotes v && denotesFields rest

end

/-- A text, or `null` for none. -/
def ofText? : Option String → Json
  | none => null
  | some s => string s

/-- Whether a field name occurs in a list of fields. -/
def hasField (fields : List (String × Json)) (name : String) : Bool :=
  fields.any fun f => f.1 == name

mutual

/-- The value in which every object keeps only the last of the fields of one name. -/
def settle : Json → Json
  | array items => array (settleItems items)
  | object fields => object (settleFields fields)
  | v => v

/-- Settles every value of a list. -/
def settleItems : List Json → List Json
  | [] => []
  | v :: rest => settle v :: settleItems rest

/-- Settles the fields of an object. -/
def settleFields : List (String × Json) → List (String × Json)
  | [] => []
  | (k, v) :: rest =>
    if hasField rest k then settleFields rest else (k, settle v) :: settleFields rest

end

/-- The deepest nesting a value may have where the whole of it is read. -/
def maxDepth : Nat := 127

/-- Whether a value can be read as a whole when `outer` arrays and objects stand around it. -/
def readable (v : Json) (outer : Nat) : Bool := v.denotes && v.depth + outer ≤ maxDepth

end Json

end SchemaSymbols
