/-
  Layers of configuration, and the settings they amount to.

  A configuration is put together from files and from variables of the environment, one layer after
  the other.  The layers are three files of fixed names in the working directory, the user's own
  file, a file asked for by name, which then must exist, and the environment.  Each layer is read
  and put over those before it, so the first one that is at fault decides what is reported.
-/
import SchemaSymbols.Fault
import SchemaSymbols.Settings.Decode
import SchemaSymbols.Settings.FileTree
import SchemaSymbols.Settings.KeyPath
import SchemaSymbols.Toml.Document

namespace SchemaSymbols

/-- A layer: keys and what they are set to. -/
abbrev ConfigLayer := List (String × ConfigValue)

/-! ## The environment -/

namespace Environment

/-- The start of the names of the variables that count. -/
def namePrelude : List Char := "familiar_codegen__".toList

/-- A text with a point for every two underscores. -/
def pointed : List Char → List Char
  | '_' :: '_' :: rest => '.' :: pointed rest
  | c :: rest => c :: pointed rest
  | [] => []

/-- The key of a variable; a variable with another name has none. -/
def key? (name : String) : Option String :=
  let name := (Text.lower name).toList
  if namePrelude.isPrefixOf name then
    some (String.ofList (pointed (name.drop namePrelude.length)))
  else none

/-- A whole number in the bounds of integers, perhaps with a sign. -/
def integer? (s : String) : Option Int :=
  let (negative, digits) := Binary64.splitSign s.toList
  let n : Int := Text.decimalValue digits
  let n := if negative then -n else n
  if digits ≠ [] ∧ digits.all Char.isDigit ∧ Toml.minInteger ≤ n ∧ n ≤ Toml.maxInteger then some n
  else none

/-- The key of the one list that a variable can give. -/
def listKey : String := "symbols.reserved_words"

/-- The value of a variable: a truth value, a whole number, another number, or a text; the text of
a list is cut at commas. -/
def value (key text : String) : ConfigValue :=
  if Text.lower text = "true" then .bool true
  else if Text.lower text = "false" then .bool false
  else
    match integer? text, Binary64.parse? text with
    | some n, _ => .integer n
    | none, some x => .float x
    | none, none =>
      if key = listKey then
        .array ((Text.pieces ',' text.toList).map fun piece => .text (String.ofList piece))
      else .text text

/-- Whether a variable can be set: its name is not empty and has no equals sign, and neither its
name nor its text has a zero character. -/
def isSettable (v : String × String) : Bool :=
  v.1 ≠ "" && !v.1.contains '=' && !v.1.contains '\x00' && !v.2.contains '\x00'

/-- Sets variables; one that cannot be set is a fault. -/
def set (environment : List (String × String)) : Except Fault (List (String × String)) :=
  if environment.all isSettable then .ok environment else .error .unsettableVariable

/-- The layer of an environment. -/
def layer (environment : List (String × String)) : ConfigLayer :=
  environment.filterMap fun (name, text) => (key? name).map fun key => (key, value key text)

end Environment

/-! ## Files -/

/-- The files that a configuration is read from. -/
structure ConfigFiles where
  /-- The files seen from the working directory. -/
  working : FileTree := {}
  /-- The user's own file. -/
  user : Option String := none
deriving DecidableEq, Repr, Inhabited

namespace ConfigFiles

/-- Writes files into an empty working directory, with the directories they need, beside the user's
own file. -/
def provide (working : List (String × String)) (user : Option String) : Except Fault ConfigFiles :=
  match FileTree.ofList? working with
  | some working => .ok { working, user }
  | none => .error .file

/-- The places where a configuration is looked for. -/
def places : List String := ["codegen.toml", ".codegen.toml", "config/codegen.toml"]

/-- The layer of a file. -/
def layerOf? (text : String) : Option ConfigLayer := do
  return ConfigValue.ofFields (← Toml.parse? text)

/-- The layer of a file that need not exist. -/
def optionalLayer? : FileTree.Found → Option ConfigLayer
  | .toml text => layerOf? text
  | _ => some []

/-- The layer of a file that must exist. -/
def neededLayer? : FileTree.Found → Option ConfigLayer
  | .toml text => layerOf? text
  | _ => none

/-- The layers of files, from the first to the last; one that cannot be read is `none`. -/
def layers (files : ConfigFiles) (asked : Option String) : List (Option ConfigLayer) :=
  places.map (fun name => optionalLayer? (files.working.find name))
    ++ files.user.toList.map layerOf?
    ++ asked.toList.map fun name => neededLayer? (files.working.find name)

end ConfigFiles

namespace Settings

/-- Puts the next layer over a configuration. -/
def addLayer (config : ConfigValue) : Option ConfigLayer → Except Fault ConfigValue
  | none => .error .configuration
  | some layer =>
    match config.overlay? layer with
    | some config => .ok config
    | none => .error .indexOutOfRange

/-- The configuration that layers amount to.  What they amount to is a layer itself: a key that was
no path may be one in lower case. -/
def configOfLayers (layers : List (Option ConfigLayer)) : Except Fault ConfigValue := do
  let config ← layers.foldlM addLayer (.table [])
  addLayer (.table []) (some config.fields)

/-- Loads the settings from files, the file `asked` for among them, and from the environment. -/
def load (files : ConfigFiles) (asked : Option String) (environment : List (String × String)) :
    Except Fault Settings := do
  let config ← configOfLayers (files.layers asked ++ [some (Environment.layer environment)])
  match ofConfig? config with
  | some s => return s
  | none => throw .configuration

end Settings

end SchemaSymbols
