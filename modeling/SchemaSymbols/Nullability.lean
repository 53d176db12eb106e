/-
  Nullability of record members.

  A member that is neither required nor has a default may be absent, whatever the target language.
  A policy can make further members nullable, never fewer.
-/
import SchemaSymbols.Json.Decode
import SchemaSymbols.Shape.Basic

namespace SchemaSymbols

/-- The rule by which members of an owner become nullable beyond those that may be absent. -/
abbrev NullabilityPolicy := Node → Member → Bool

/-- The policies to choose from. -/
inductive NullabilityMode where
  /-- No further members are nullable. -/
  | structural
  /-- Every member without a default is nullable, even a required one. -/
  | clientOptional
deriving DecidableEq, Repr, Inhabited

namespace NullabilityMode

/-- The word for a mode. -/
def text : NullabilityMode → String
  | structural => "structural"
  | clientOptional => "client-optional"

/-- The modes by their words. -/
def byText : List (String × NullabilityMode) :=
  [structural, clientOptional].map fun m => (m.text, m)

/-- Reads a mode. -/
def ofJson? (v : Json) : Option NullabilityMode := v.choice? .plain byText

/-- The policy of a mode. -/
def policy : NullabilityMode → NullabilityPolicy
  | structural => fun _ _ => false
  | clientOptional => fun _ m => (TagSet.default? m.tags).isNone

end NullabilityMode

/-- Whether a member may be absent: it is not required and has no default. -/
def Member.mayBeAbsent (m : Member) : Bool :=
  !m.tags.contains .required && (TagSet.default? m.tags).isNone

/-- Whether a member is nullable under a policy. -/
def NullabilityPolicy.makesNullable (policy : NullabilityPolicy) (owner : Node) (m : Member) :
    Bool :=
  m.mayBeAbsent || policy owner m

end SchemaSymbols
