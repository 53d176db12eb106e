/-
  Settings written to a configuration file.
-/
import SchemaSymbols.Settings.Layers
import SchemaSymbols.Toml.Printer

namespace SchemaSymbols.Settings

/-- The text of a configuration file with all settings. -/
def fileText (s : Settings) : String :=
  "\n".intercalate [
    Toml.sectionText "target" [
      ("language", Toml.quoted s.target.language.text),
      ("root_namespace", Toml.quoted s.target.rootNamespace),
      ("models_dir", Toml.quoted s.target.modelsDir)],
    Toml.sectionText "normalize" [
      ("synthetic_namespace", Toml.quoted s.synthetic.scope),
      ("input_suffix", Toml.quoted s.synthetic.inputSuffix),
      ("output_suffix", Toml.quoted s.synthetic.outputSuffix)],
    Toml.sectionText "symbols" ([
      ("nullability", Toml.quoted s.symbols.nullability.text),
      ("reserved_words", Toml.textList s.symbols.reservedWords)]
      ++ s.symbols.fallbackVariant.toList.map fun f => ("fallback_variant", Toml.quoted f)),
    Toml.sectionText "naming" [
      ("acronyms", Toml.textList s.naming.acronyms.toList),
      ("preserve_screaming_case", Toml.boolText s.naming.keepCapitals)]]

/-- Saves settings in a working directory that is empty. -/
def save (s : Settings) (name : String) : Except Fault ConfigFiles :=
  match FileTree.write? {} name s.fileText with
  | some working => .ok { working }
  | none => .error .file

end SchemaSymbols.Settings
