/-
  Shapes: the kinds of type, operation and service that a schema declares.

  A shape refers to other shapes by identifier.  `Shape.references` lists those references with
  the role each one plays, in the order in which they are declared.
-/
import SchemaSymbols.Tag

namespace SchemaSymbols

/-- The kinds of primitive value. -/
inductive PrimitiveKind where
  | string | boolean | byte | short | integer | long | float | double
  | bigInteger | bigDecimal | blob | timestamp | document
deriving DecidableEq, Repr, Inhabited

namespace PrimitiveKind

/-- The word for a primitive kind. -/
def text : PrimitiveKind → String
  | string => "string"
  | boolean => "boolean"
  | byte => "byte"
  | short => "short"
  | integer => "integer"
  | long => "long"
  | float => "float"
  | double => "double"
  | bigInteger => "big-integer"
  | bigDecimal => "big-decimal"
  | blob => "blob"
  | timestamp => "timestamp"
  | document => "document"

/-- All primitive kinds. -/
def all : List PrimitiveKind :=
  [string, boolean, byte, short, integer, long, float, double, bigInteger, bigDecimal, blob,
    timestamp, document]

/-- The primitive kinds by their words. -/
def byText : List (String × PrimitiveKind) := all.map fun k => (k.text, k)

end PrimitiveKind

/-- A named reference to the shape of a value. -/
structure Member where
  name : String
  target : ShapeId
  tags : TagSet := .empty
deriving DecidableEq, Repr, Inhabited

/-- One value of an enumeration: its name, and how it is sent. -/
structure EnumValue where
  name : String
  value : String
deriving DecidableEq, Repr, Inhabited

/-- The role a reference plays. -/
inductive EdgeKind where
  | operation | input | output | error | member | element | mapKey | mapValue
deriving DecidableEq, Repr, Inhabited

/-- What a schema declares under an identifier. -/
inductive Shape where
  | primitive (kind : PrimitiveKind)
  | record (members : List Member)
  | union (members : List Member)
  | enum (values : List EnumValue)
  | list (element : Member)
  | set (element : Member)
  | map (key value : Member)
  | operation (input output : Option ShapeId) (errors : List ShapeId)
  | service (operations : List ShapeId)
deriving DecidableEq, Repr, Inhabited

namespace Shape

/-- The word for a shape's kind. -/
def word : Shape → String
  | primitive _ => "primitive"
  | record _ => "record"
  | union _ => "union"
  | enum _ => "enum"
  | list _ => "list"
  | set _ => "set"
  | map _ _ => "map"
  | operation _ _ _ => "operation"
  | service _ => "service"

/-- Whether a shape is a record. -/
def isRecord : Shape → Bool
  | record _ => true
  | _ => false

/-- Whether a shape is a union. -/
def isUnion : Shape → Bool
  | union _ => true
  | _ => false

/-- Whether a shape is an enumeration. -/
def isEnum : Shape → Bool
  | enum _ => true
  | _ => false

/-- Whether a shape is a set. -/
def isSet : Shape → Bool
  | set _ => true
  | _ => false

/-- Whether a shape is an operation. -/
def isOperation : Shape → Bool
  | operation _ _ _ => true
  | _ => false

/-- Whether a shape is a service. -/
def isService : Shape → Bool
  | service _ => true
  | _ => false

/-- Whether a shape stores its members inline: a record or a union. -/
def isAggregate (s : Shape) : Bool := s.isRecord || s.isUnion

/-- Whether a shape gets a declaration of its own: a record, a union or an enumeration. -/
def isDeclared (s : Shape) : Bool := s.isAggregate || s.isEnum

/-- Whether a shape collects values of another one: a list, a set or a map. -/
def isContainer : Shape → Bool
  | list _ => true
  | set _ => true
  | map _ _ => true
  | _ => false

/-- The members of a record or union. -/
def members : Shape → List Member
  | record members => members
  | union members => members
  | _ => []

/-- The element of a list or set, or the key and then the value of a map. -/
def elements : Shape → List Member
  | list element => [element]
  | set element => [element]
  | map key value => [key, value]
  | _ => []

/-- The references a shape makes, in declaration order. -/
def references : Shape → List (EdgeKind × ShapeId)
  | primitive _ => []
  | enum _ => []
  | record members => members.map fun m => (.member, m.target)
  | union members => members.map fun m => (.member, m.target)
  | list element => [(.element, element.target)]
  | set element => [(.element, element.target)]
  | map key value => [(.mapKey, key.target), (.mapValue, value.target)]
  | operation input output errors =>
    input.toList.map (.input, ·) ++ output.toList.map (.output, ·) ++ errors.map (.error, ·)
  | service operations => operations.map (.operation, ·)

end Shape

/-- A shape under its identifier, with the tags of the shape itself. -/
structure Node where
  id : ShapeId
  shape : Shape
  tags : TagSet := .empty
deriving DecidableEq, Repr, Inhabited

namespace Node

/-- The node with one more tag. -/
def withTag (n : Node) (t : Tag) : Node := { n with tags := n.tags.insert t }

/-- The first member of a name in a record or union. -/
def member? (n : Node) (name : String) : Option Member :=
  n.shape.members.find? fun m => m.name == name

/-- The identifier of a member of this node. -/
def memberId (n : Node) (m : Member) : ShapeId := n.id.withMember m.name

end Node

end SchemaSymbols
