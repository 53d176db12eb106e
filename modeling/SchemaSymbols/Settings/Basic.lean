/-
  Settings: everything a user can choose for a run.
-/
import SchemaSymbols.Normalization
import SchemaSymbols.Profile.Json
import SchemaSymbols.Resolution.Resolver

namespace SchemaSymbols

/-- The target language, and where its declarations go. -/
structure TargetSettings where
  language : Language := .swift
  rootNamespace : String := "Models"
  modelsDir : String := "Sources/Models"
deriving DecidableEq, Repr, Inhabited

/-- How symbols are resolved. -/
structure SymbolSettings where
  nullability : NullabilityMode := .structural
  reservedWords : List String := []
  fallbackVariant : Option String := none
deriving DecidableEq, Repr, Inhabited

/-- The settings of a run. -/
structure Settings where
  target : TargetSettings := {}
  synthetic : SyntheticNaming := {}
  symbols : SymbolSettings := {}
  naming : NamingOptions := {}
deriving DecidableEq, Repr, Inhabited

namespace Settings

/-- The profile of the target language, with the fallback variant of the settings. -/
def profile (s : Settings) : Profile :=
  let p := Profile.forLanguage s.target.language
  { p with fallbackVariant := s.symbols.fallbackVariant.getD p.fallbackVariant }

/-- The settings of a resolver. -/
def resolverOptions (s : Settings) : ResolverOptions where
  rootNamespace := s.target.rootNamespace
  modelsDir := s.target.modelsDir
  reservedWords := s.symbols.reservedWords
  fallbackVariant := s.symbols.fallbackVariant
  naming := s.naming

/-- The resolver of a graph under the settings. -/
def resolver (s : Settings) (g : Graph) : Resolver :=
  .new g s.profile s.symbols.nullability.policy s.resolverOptions

end Settings

end SchemaSymbols
