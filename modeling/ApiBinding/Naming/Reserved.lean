/-!
# Reserved words

A generated name must not be a keyword of the languages the client may be written
in, nor one of the words that the configuration adds.

## Main definitions

* `KeywordSet` — the languages whose keywords can be avoided.
* `NamingConfig` — which of them are, and which further words.
* `NamingConfig.reserves` — whether a word is to be avoided.
-/

namespace ApiBinding

/-- A language whose keywords can be avoided. -/
inductive KeywordSet where
  | rust
  | python
  | typescript
  deriving DecidableEq, Repr, Inhabited

namespace KeywordSet

/-- The keywords of a language, those it reserves for later and those it knows
only in some places included. -/
def keywords : KeywordSet → List String
  | .rust =>
    ["as", "async", "await", "break", "const", "continue", "crate", "dyn", "else", "enum",
     "extern", "false", "fn", "for", "if", "impl", "in", "let", "loop", "match", "mod", "move",
     "mut", "pub", "ref", "return", "self", "Self", "static", "struct", "super", "trait",
     "true", "type", "unsafe", "use", "where", "while", "abstract", "become", "box", "do",
     "final", "gen", "macro", "override", "priv", "try", "typeof", "unsized", "virtual",
     "yield", "union"]
  | .python =>
    ["False", "None", "True", "and", "as", "assert", "async", "await", "break", "class",
     "continue", "def", "del", "elif", "else", "except", "finally", "for", "from", "global",
     "if", "import", "in", "is", "lambda", "nonlocal", "not", "or", "pass", "raise", "return",
     "try", "while", "with", "yield"]
  | .typescript =>
    ["break", "case", "catch", "class", "const", "continue", "debugger", "default", "delete",
     "do", "else", "enum", "export", "extends", "false", "finally", "for", "function", "if",
     "import", "in", "instanceof", "new", "null", "return", "super", "switch", "this", "throw",
     "true", "try", "typeof", "var", "void", "while", "with", "yield", "let", "static",
     "implements", "interface", "package", "private", "protected", "public", "await", "async"]

/-- The word for a language. -/
def name : KeywordSet → String
  | .rust => "rust"
  | .python => "python"
  | .typescript => "typescript"

/-- All languages. -/
def all : List KeywordSet := [.rust, .python, .typescript]

/-- All languages with their words. -/
def words : List (String × KeywordSet) := all.map fun set => (set.name, set)

end KeywordSet

/-- Which words a generated name must avoid. -/
structure NamingConfig where
  keywords : List KeywordSet := KeywordSet.all
  /-- Further words, compared with the finished name. -/
  extraReserved : List String := []
  deriving DecidableEq, Repr, Inhabited

/-- Whether a word is to be avoided. -/
def NamingConfig.reserves (config : NamingConfig) (word : String) : Bool :=
  config.extraReserved.contains word ||
    config.keywords.any fun set => set.keywords.contains word

end ApiBinding
