/-
  Diagnostics: remarks on names that differ from what the schema says.

  A diagnostic never stops a run.  It has a code, which fixes its severity, the shape or member it
  is about, a message, and perhaps some lines of context.
-/
import SchemaSymbols.ShapeId

namespace SchemaSymbols

/-- How serious a diagnostic is. -/
inductive Severity where
  | info
  | warning
deriving DecidableEq, Repr, Inhabited

/-- The word for a severity in the text of a diagnostic. -/
def Severity.text : Severity → String
  | info => "info"
  | warning => "warning"

/-- The word for a severity as a value. -/
def Severity.word : Severity → String
  | info => "Info"
  | warning => "Warning"

/-- What a diagnostic is about. -/
inductive DiagnosticCode where
  /-- A name was reserved. -/
  | escapedIdentifier
  /-- Two names became equal, and one got a number. -/
  | nameCollision
  /-- The fallback variant had the name of a variant. -/
  | fallbackRenamed
  /-- A record that several operations use was copied. -/
  | sharedRecordCloned
  /-- An empty record was made for an operation. -/
  | recordSynthesized
deriving DecidableEq, Repr, Inhabited

namespace DiagnosticCode

/-- The short form of a code. -/
def text : DiagnosticCode → String
  | escapedIdentifier => "I001"
  | nameCollision => "W001"
  | fallbackRenamed => "W002"
  | sharedRecordCloned => "I002"
  | recordSynthesized => "I003"

/-- The severity of a code. -/
def severity : DiagnosticCode → Severity
  | nameCollision => .warning
  | fallbackRenamed => .warning
  | _ => .info

/-- The word for a code. -/
def word : DiagnosticCode → String
  | escapedIdentifier => "EscapedIdentifier"
  | nameCollision => "NameCollision"
  | fallbackRenamed => "FallbackRenamed"
  | sharedRecordCloned => "SharedRecordCloned"
  | recordSynthesized => "RecordSynthesized"

/-- The codes by their words. -/
def byWord : List (String × DiagnosticCode) :=
  [escapedIdentifier, nameCollision, fallbackRenamed, sharedRecordCloned, recordSynthesized].map
    fun c => (c.word, c)

/-- Reads a code. -/
def ofJson? (v : Json) : Option DiagnosticCode := v.choice? .plain byWord

end DiagnosticCode

/-- A remark on a shape or member. -/
structure Diagnostic where
  shape : ShapeId
  code : DiagnosticCode
  message : String
  context : List String := []
deriving DecidableEq, Repr, Inhabited

namespace Diagnostic

/-- The severity of a diagnostic. -/
def severity (d : Diagnostic) : Severity := d.code.severity

/-- Whether a diagnostic is a warning. -/
def isWarning (d : Diagnostic) : Bool := d.severity = .warning

/-- A name was reserved and is escaped. -/
def escaped (shape : ShapeId) (name used : String) : Diagnostic where
  shape
  code := .escapedIdentifier
  message := s!"'{name}' is reserved, emitted as '{used}'"

/-- A name was taken, and another one is used. -/
def nameCollision (shape : ShapeId) (wanted used : String) : Diagnostic where
  shape
  code := .nameCollision
  message := s!"'{wanted}' is already taken, emitted as '{used}'"

/-- The name of the fallback variant was taken, and another one is used. -/
def fallbackRenamed (shape : ShapeId) (wanted used : String) : Diagnostic where
  shape
  code := .fallbackRenamed
  message := s!"Fallback variant '{wanted}' clashes with a declared variant"
  context := [s!"Renamed to '{used}'"]

/-- A record that several operations use was copied. -/
def sharedRecordCloned (copy source : ShapeId) (users : Nat) : Diagnostic where
  shape := copy
  code := .sharedRecordCloned
  message := s!"{source} is shared by {users} operations, cloned"
  context := [s!"Clone of {source}"]

/-- An empty record was made for an operation. -/
def recordSynthesized (record : ShapeId) : Diagnostic where
  shape := record
  code := .recordSynthesized
  message := "operation declared no record, created an empty one"

/-- The text of a diagnostic: one line, and one more for each line of context. -/
def text (d : Diagnostic) : String :=
  let code := d.code.text
  let severity := d.severity.text
  let message := d.message
  let shape := d.shape
  s!"[{code}] {severity}: {message} ({shape})"
    ++ String.join (d.context.map fun line => "\n  - " ++ line)

/-- The text of a list of diagnostics. -/
def textOfAll (ds : List Diagnostic) : String := String.join (ds.map fun d => d.text ++ "\n")

/-- The JSON form of a diagnostic. -/
def toJson (d : Diagnostic) : Json :=
  .object ([
    ("shape", d.shape.toJson), ("code", .string d.code.word), ("message", .string d.message)]
    ++ if d.context.isEmpty then [] else [("context", .array (d.context.map .string))])

/-- Reads a diagnostic. -/
def ofJson? (v : Json) : Option Diagnostic := do
  let [shape, code, message, context] ← v.record? ["shape", "code", "message", "context"] | none
  return {
    shape := ← Json.required? ShapeId.ofJson? shape
    code := ← Json.required? DiagnosticCode.ofJson? code
    message := ← Json.required? Json.text? message
    context := ← Json.defaulted? [] (Json.list? Json.text?) context }

/-- Reads a list of diagnostics, which stands in the field `items`. -/
def listOfJson? (v : Json) : Option (List Diagnostic) := do
  let [items] ← v.record? ["items"] | none
  Json.required? (Json.list? ofJson?) items

end Diagnostic

end SchemaSymbols
