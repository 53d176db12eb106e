/-
  Settings read from a configuration.

  A configuration is read generously: texts may be given as numbers or truth values, truth values as
  numbers or words, and words in any case.  A section is a table, or an array that gives its fields
  by position.  What a section does not know is skipped, and what is missing has its default.
-/
import SchemaSymbols.Decimal.Shortest
import SchemaSymbols.Settings.Basic
import SchemaSymbols.Settings.Value

namespace SchemaSymbols

namespace ConfigValue

/-- A value as a text. -/
def asText? : ConfigValue → Option String
  | text s => some s
  | bool b => some (if b then "true" else "false")
  | integer n => some (toString n)
  | float x => some x.text
  | _ => none

/-- The truth value that a word stands for. -/
def truthOfWord? (s : String) : Option Bool :=
  let word := Text.lower s
  if ["1", "true", "on", "yes"].contains word then some true
  else if ["0", "false", "off", "no"].contains word then some false
  else none

/-- A value as a truth value. -/
def asBool? : ConfigValue → Option Bool
  | bool b => some b
  | integer n => some (n != 0)
  | float x => some !x.isZero
  | text s => truthOfWord? s
  | _ => none

/-- A value as a list of texts. -/
def asTexts? : ConfigValue → Option (List String)
  | array items => items.mapM asText?
  | _ => none

/-- The alternative that a word names, in any case. -/
def named? {α : Type} (alternatives : List (String × α)) (word : String) : Option α :=
  (alternatives.find? fun a => Text.lower a.1 == Text.lower word).map Prod.snd

/-- A value as one of several alternatives: its word, or a table with that word as its only key. -/
def asChoice? {α : Type} (alternatives : List (String × α)) : ConfigValue → Option α
  | text s => named? alternatives s
  | table [(word, _)] => named? alternatives word
  | _ => none

/-- The values of the fields `names` of a section. -/
def section? (names : List String) : ConfigValue → Option (List (Option ConfigValue))
  | table fields => some (names.map fun name => fields.lookup name)
  | array items => some ((List.range names.length).map (items[·]?))
  | _ => none

/-- A value as a text that may be missing. -/
def asOptionalText? : ConfigValue → Option (Option String)
  | nothing => some none
  | v => v.asText?.map some

/-- A field with a value for its absence. -/
def orElse? {α : Type} (absent : α) (read : ConfigValue → Option α) :
    Option ConfigValue → Option α
  | none => some absent
  | some v => read v

end ConfigValue

open ConfigValue (asBool? asChoice? asOptionalText? asText? asTexts? orElse?)

/-- Reads target settings from their section. -/
def TargetSettings.ofConfig? (v : ConfigValue) : Option TargetSettings := do
  let absent : TargetSettings := {}
  let [language, rootNamespace, modelsDir] ←
    v.section? ["language", "root_namespace", "models_dir"] | none
  return {
    language := ← orElse? absent.language (asChoice? Language.byText) language
    rootNamespace := ← orElse? absent.rootNamespace asText? rootNamespace
    modelsDir := ← orElse? absent.modelsDir asText? modelsDir }

/-- Reads the naming of made records from its section. -/
def SyntheticNaming.ofConfig? (v : ConfigValue) : Option SyntheticNaming := do
  let absent : SyntheticNaming := {}
  let [scope, inputSuffix, outputSuffix] ←
    v.section? ["synthetic_namespace", "input_suffix", "output_suffix"] | none
  return {
    scope := ← orElse? absent.scope asText? scope
    inputSuffix := ← orElse? absent.inputSuffix asText? inputSuffix
    outputSuffix := ← orElse? absent.outputSuffix asText? outputSuffix }

/-- Reads symbol settings from their section. -/
def SymbolSettings.ofConfig? (v : ConfigValue) : Option SymbolSettings := do
  let absent : SymbolSettings := {}
  let [nullability, reservedWords, fallbackVariant] ←
    v.section? ["nullability", "reserved_words", "fallback_variant"] | none
  return {
    nullability := ← orElse? absent.nullability (asChoice? NullabilityMode.byText) nullability
    reservedWords := ← orElse? absent.reservedWords asTexts? reservedWords
    fallbackVariant := ← orElse? none asOptionalText? fallbackVariant }

/-- Reads naming options from their section. -/
def NamingOptions.ofConfig? (v : ConfigValue) : Option NamingOptions := do
  let absent : NamingOptions := {}
  let [acronyms, keepCapitals] ← v.section? ["acronyms", "preserve_screaming_case"] | none
  return {
    acronyms := ← orElse? absent.acronyms (fun v => v.asTexts?.map Sorted.ofList) acronyms
    keepCapitals := ← orElse? absent.keepCapitals asBool? keepCapitals }

/-- Reads settings from the sections of a configuration. -/
def Settings.ofConfig? (v : ConfigValue) : Option Settings := do
  let [target, synthetic, symbols, naming] ←
    v.section? ["target", "normalize", "symbols", "naming"] | none
  return {
    target := ← orElse? {} TargetSettings.ofConfig? target
    synthetic := ← orElse? {} SyntheticNaming.ofConfig? synthetic
    symbols := ← orElse? {} SymbolSettings.ofConfig? symbols
    naming := ← orElse? {} NamingOptions.ofConfig? naming }

end SchemaSymbols
