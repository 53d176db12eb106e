/-
  The JSON form of settings; every part may be left out.
-/
import SchemaSymbols.Settings.Basic

namespace SchemaSymbols

namespace TargetSettings

/-- The JSON form of target settings. -/
def toJson (t : TargetSettings) : Json :=
  .object [
    ("language", .string t.language.text), ("root_namespace", .string t.rootNamespace),
    ("models_dir", .string t.modelsDir)]

/-- Reads target settings. -/
def ofJson? (v : Json) : Option TargetSettings := do
  let absent : TargetSettings := {}
  let [language, rootNamespace, modelsDir] ←
    v.record? ["language", "root_namespace", "models_dir"] | none
  return {
    language := ← Json.defaulted? absent.language Language.ofJson? language
    rootNamespace := ← Json.defaulted? absent.rootNamespace Json.text? rootNamespace
    modelsDir := ← Json.defaulted? absent.modelsDir Json.text? modelsDir }

end TargetSettings

namespace SyntheticNaming

/-- The JSON form of the naming of made records. -/
def toJson (n : SyntheticNaming) : Json :=
  .object [
    ("synthetic_namespace", .string n.scope), ("input_suffix", .string n.inputSuffix),
    ("output_suffix", .string n.outputSuffix)]

/-- Reads the naming of made records. -/
def ofJson? (v : Json) : Option SyntheticNaming := do
  let absent : SyntheticNaming := {}
  let [scope, inputSuffix, outputSuffix] ←
    v.record? ["synthetic_namespace", "input_suffix", "output_suffix"] | none
  return {
    scope := ← Json.defaulted? absent.scope Json.text? scope
    inputSuffix := ← Json.defaulted? absent.inputSuffix Json.text? inputSuffix
    outputSuffix := ← Json.defaulted? absent.outputSuffix Json.text? outputSuffix }

end SyntheticNaming

namespace SymbolSettings

/-- The JSON form of symbol settings. -/
def toJson (s : SymbolSettings) : Json :=
  .object ([
    ("nullability", .string s.nullability.text),
    ("reserved_words", .array (s.reservedWords.map .string))]
    ++ s.fallbackVariant.toList.map fun f => ("fallback_variant", .string f))

/-- Reads symbol settings. -/
def ofJson? (v : Json) : Option SymbolSettings := do
  let absent : SymbolSettings := {}
  let [nullability, reservedWords, fallbackVariant] ←
    v.record? ["nullability", "reserved_words", "fallback_variant"] | none
  return {
    nullability := ← Json.defaulted? absent.nullability NullabilityMode.ofJson? nullability
    reservedWords := ← Json.defaulted? absent.reservedWords (Json.list? Json.text?) reservedWords
    fallbackVariant := ← Json.optional? Json.text? fallbackVariant }

end SymbolSettings

namespace Settings

/-- The JSON form of settings. -/
def toJson (s : Settings) : Json :=
  .object [
    ("target", s.target.toJson), ("normalize", s.synthetic.toJson),
    ("symbols", s.symbols.toJson), ("naming", s.naming.toJson)]

/-- Reads settings. -/
def ofJson? (v : Json) : Option Settings := do
  let [target, synthetic, symbols, naming] ←
    v.record? ["target", "normalize", "symbols", "naming"] | none
  return {
    target := ← Json.defaulted? {} TargetSettings.ofJson? target
    synthetic := ← Json.defaulted? {} SyntheticNaming.ofJson? synthetic
    symbols := ← Json.defaulted? {} SymbolSettings.ofJson? symbols
    naming := ← Json.defaulted? {} NamingOptions.ofJson? naming }

end Settings

end SchemaSymbols
