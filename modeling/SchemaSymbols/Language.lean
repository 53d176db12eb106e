/-
  Target languages and the words they reserve.
-/

namespace SchemaSymbols

/-- A language that types are declared in. -/
inductive Language where
  | swift
  | rust
  | typescript
  | python
deriving DecidableEq, Repr, Inhabited

namespace Language

/-- The word for a language. -/
def text : Language → String
  | swift => "swift"
  | rust => "rust"
  | typescript => "typescript"
  | python => "python"

/-- The languages by their words. -/
def byText : List (String × Language) :=
  [swift, rust, typescript, python].map fun l => (l.text, l)

/-- The words that cannot be used as plain identifiers. -/
def reservedWords : Language → List String
  | swift => [
    "Any", "Protocol", "Self", "Type", "as", "associatedtype", "break", "case",
    "catch", "class", "continue", "default", "defer", "deinit", "do", "else",
    "enum", "extension", "fallthrough", "false", "fileprivate", "for", "func",
    "guard", "if", "import", "in", "init", "inout", "internal", "is", "let",
    "nil", "open", "operator", "private", "protocol", "public", "repeat",
    "rethrows", "return", "self", "static", "struct", "subscript", "super",
    "switch", "throw", "throws", "true", "try", "typealias", "var", "where",
    "while"]
  | rust => [
    "as", "break", "const", "continue", "crate", "else", "enum", "extern",
    "false", "fn", "for", "if", "impl", "in", "let", "loop", "match", "mod",
    "move", "mut", "pub", "ref", "return", "self", "Self", "static", "struct",
    "super", "trait", "true", "type", "unsafe", "use", "where", "while",
    "async", "await", "dyn", "abstract", "become", "box", "do", "final",
    "macro", "override", "priv", "typeof", "unsized", "virtual", "yield"]
  | typescript => [
    "break", "case", "catch", "class", "const", "continue", "debugger",
    "default", "delete", "do", "else", "enum", "export", "extends", "false",
    "finally", "for", "function", "if", "import", "in", "instanceof", "new",
    "null", "return", "super", "switch", "this", "throw", "true", "try",
    "typeof", "var", "void", "while", "with", "as", "implements", "interface",
    "let", "package", "private", "protected", "public", "static", "yield",
    "any", "boolean", "constructor", "declare", "get", "module", "require",
    "number", "set", "string", "symbol", "type", "from", "of"]
  | python => [
    "False", "None", "True", "and", "as", "assert", "async", "await", "break",
    "class", "continue", "def", "del", "elif", "else", "except", "finally",
    "for", "from", "global", "if", "import", "in", "is", "lambda", "nonlocal",
    "not", "or", "pass", "raise", "return", "try", "while", "with", "yield"]

end Language

end SchemaSymbols
