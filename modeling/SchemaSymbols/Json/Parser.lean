/-
  From JSON text to values.

  The parser is a stack machine: it takes one token at a time, and its state says what may follow.
  Open arrays and objects wait on a stack, with what has been read of them in reverse, so nothing
  bounds the nesting and a run takes exactly one step for each token.
-/
import SchemaSymbols.Json.Basic
import SchemaSymbols.Json.Token

namespace SchemaSymbols.Json

/-- An array or object that is still open, with what has been read of it in reverse.  An object is
`sound` while all its field names denote a text. -/
inductive Frame where
  | array (items : List Json)
  | object (fields : List (String × Json)) (sound : Bool) (key : String)

/-- What the machine expects: a value, the first item or the end of an array, the first field or
the end of an object, a field name, the colon after a name, or, once a value is complete, what may
follow it. -/
inductive State where
  | value (stack : List Frame)
  | firstItem (stack : List Frame)
  | firstField (stack : List Frame)
  | name (fields : List (String × Json)) (sound : Bool) (stack : List Frame)
  | colon (fields : List (String × Json)) (sound : Bool) (key : String) (stack : List Frame)
  | complete (value : Json) (stack : List Frame)

/-- The value of a token that is a value by itself. -/
def scalar? : Token → Option Json
  | .null => some .null
  | .bool b => some (.bool b)
  | .number n => some (.number n)
  | .text s => some (.string s)
  | .noNumber => some .invalid
  | .noText => some .invalid
  | _ => none

/-- The state after the first token of a value. -/
def State.startValue? (stack : List Frame) : Token → Option State
  | .openBracket => some (.firstItem stack)
  | .openBrace => some (.firstField stack)
  | t => (scalar? t).map (.complete · stack)

/-- The state after a field name. -/
def State.takeName? (fields : List (String × Json)) (sound : Bool) (stack : List Frame) :
    Token → Option State
  | .text k => some (.colon fields sound k stack)
  | .noText => some (.colon fields false "" stack)
  | _ => none

/-- One step of the machine. -/
def State.step? : State → Token → Option State
  | .value stack, t => startValue? stack t
  | .firstItem stack, .closeBracket => some (.complete (.array []) stack)
  | .firstItem stack, t => startValue? (.array [] :: stack) t
  | .firstField stack, .closeBrace => some (.complete (.object []) stack)
  | .firstField stack, t => takeName? [] true stack t
  | .name fields sound stack, t => takeName? fields sound stack t
  | .colon fields sound k stack, .colon => some (.value (.object fields sound k :: stack))
  | .complete v (.array items :: stack), .comma => some (.value (.array (v :: items) :: stack))
  | .complete v (.array items :: stack), .closeBracket =>
    some (.complete (.array (v :: items).reverse) stack)
  | .complete v (.object fields sound k :: stack), .comma =>
    some (.name ((k, v) :: fields) sound stack)
  | .complete v (.object fields sound k :: stack), .closeBrace =>
    some (.complete (if sound then .object ((k, v) :: fields).reverse else .invalid) stack)
  | _, _ => none

/-- The value of a list of tokens. -/
def ofTokens? (tokens : List Token) : Option Json := do
  match ← tokens.foldlM State.step? (.value []) with
  | .complete v [] => some v
  | _ => none

/-- The value of a text. -/
def parse? (s : String) : Option Json := tokens? s.toList >>= ofTokens?

/-- The value of a text all of which is read: every literal denotes something, the nesting is
bounded, and the last of the fields of one name counts. -/
def parseWhole? (s : String) : Option Json := do
  let v ← parse? s
  if v.readable 0 then some v.settle else none

end SchemaSymbols.Json
