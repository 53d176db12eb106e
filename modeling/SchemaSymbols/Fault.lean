/-
  Faults: the reasons for which a schema, a request or a configuration is refused.

  Every fault names what it is about.  `Fault.message` has the wording, and `Fault.shape?` the
  shape to point a reader to.
-/
import SchemaSymbols.Language
import SchemaSymbols.Shape.Basic

namespace SchemaSymbols

/-- The two ends of an operation. -/
inductive Side where
  | input
  | output
deriving DecidableEq, Repr, Inhabited

namespace Side

/-- The word for a side. -/
def text : Side → String
  | input => "input"
  | output => "output"

/-- The tag of a record made for a side. -/
def tag : Side → Tag
  | input => .input
  | output => .output

end Side

/-- A reason to refuse. -/
inductive Fault where
  /-- A shape refers to one that does not exist. -/
  | danglingReference (source target : ShapeId)
  /-- Two shapes have one identifier. -/
  | duplicateShape (id : ShapeId)
  /-- There is no such shape. -/
  | missingShape (id : ShapeId)
  /-- A side of an operation is declared as something else than a record. -/
  | operationTargetNotRecord (operation target : ShapeId) (side : Side) (found : String)
  /-- The record to be made for an operation has the identifier of another shape. -/
  | syntheticCollision (operation synthetic : ShapeId)
  /-- A shape is declared where only made records belong. -/
  | reservedNamespace (id : ShapeId)
  /-- A member refers to an operation or a service. -/
  | unsupportedMemberTarget (member target : ShapeId) (found : String)
  /-- The target language has no type for a primitive. -/
  | unmappedPrimitive (shape : ShapeId) (kind : PrimitiveKind) (language : Language)
  /-- A collection contains itself, with nothing but collections in between. -/
  | containerCycle (id : ShapeId)
  /-- Two declared types have one qualified name. -/
  | declarationCollision (name : String) (first second : ShapeId)
  /-- Types contain each other and no member is boxed. -/
  | missingIndirection (members : List ShapeId)
  /-- A text is not the written form of an identifier. -/
  | invalidShapeId (text : String)
  /-- A JSON text or value does not have the expected form. -/
  | json
  /-- The configuration cannot be read. -/
  | configuration
  /-- A key of the configuration has an index that no array can have. -/
  | indexOutOfRange
  /-- A variable of the environment has a name or a text that none can have. -/
  | unsettableVariable
  /-- A file cannot be written. -/
  | file
deriving DecidableEq, Repr, Inhabited

namespace Fault

/-- The shape that a fault is about. -/
def shape? : Fault → Option ShapeId
  | danglingReference source _ => some source
  | duplicateShape id => some id
  | missingShape id => some id
  | operationTargetNotRecord operation _ _ _ => some operation
  | syntheticCollision operation _ => some operation
  | reservedNamespace id => some id
  | unsupportedMemberTarget member _ _ => some member
  | unmappedPrimitive shape _ _ => some shape
  | containerCycle id => some id
  | declarationCollision _ first _ => some first
  | missingIndirection members => members.head?
  | invalidShapeId _ => none
  | json => none
  | configuration => none
  | indexOutOfRange => none
  | unsettableVariable => none
  | file => none

/-- Whether a character is a control character. -/
def isControl (c : Char) : Bool := c.toNat < 0x20 || (0x7f ≤ c.toNat && c.toNat < 0xa0)

/-- A character of a text that is shown in quotes; control characters without a letter of their own
are shown by their code. -/
def shownChar (c : Char) : String :=
  if c = '"' then "\\\""
  else if c = '\\' then "\\\\"
  else if c = '\n' then "\\n"
  else if c = '\r' then "\\r"
  else if c = '\t' then "\\t"
  else if c = '\x00' then "\\0"
  else if isControl c then "\\u\x7b" ++ String.ofList (Nat.toDigits 16 c.toNat) ++ "\x7d"
  else c.toString

/-- A text shown in quotes. -/
def shownText (s : String) : String := "\"" ++ String.join (s.toList.map shownChar) ++ "\""

/-- An identifier shown with the names of its parts. -/
def shownId (id : ShapeId) : String :=
  let member :=
    match id.member with
    | none => "None"
    | some m => "Some(" ++ shownText m ++ ")"
  "ShapeId \x7b namespace: " ++ shownText id.scope ++ ", name: " ++ shownText id.name
    ++ ", member: " ++ member ++ " \x7d"

/-- The wording of a fault; faults of foreign formats have none of their own. -/
def message? : Fault → Option String
  | danglingReference source target =>
    some s!"Dangling reference: {source} points at missing shape {target}"
  | duplicateShape id => some s!"Duplicate shape identifier: {id}"
  | missingShape id => some s!"Shape not found: {id}"
  | operationTargetNotRecord operation target side found =>
    let role := side.text
    some s!"Operation {operation} uses {target} as {role}, but it is a {found}, not a record"
  | syntheticCollision operation synthetic =>
    some s!"Synthetic shape {synthetic} for operation {operation} collides with an existing shape"
  | reservedNamespace id => some s!"Shape {id} is declared in the reserved synthetic namespace"
  | unsupportedMemberTarget member target found =>
    some s!"Member {member} targets {target}, a {found}, which cannot be used as a value"
  | unmappedPrimitive shape kind language =>
    let kind := kind.text
    let language := language.text
    some s!"No {language} type mapping for {kind} primitive {shape}"
  | containerCycle id =>
    some s!"Collection {id} contains itself without an intervening record or union"
  | declarationCollision name first second =>
    some s!"Declared types {first} and {second} both resolve to {name}"
  | missingIndirection members =>
    let shown := ", ".intercalate (members.map shownId)
    some s!"Recursive shapes [{shown}] have no boxed member to break the cycle"
  | invalidShapeId text => some s!"Invalid shape identifier: {text}"
  | json => none
  | configuration => none
  | indexOutOfRange => none
  | unsettableVariable => none
  | file => none

end Fault

end SchemaSymbols
