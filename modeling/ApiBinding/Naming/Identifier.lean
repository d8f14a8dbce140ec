import ApiBinding.Naming.Reserved
import ApiBinding.Text.Words

/-!
# Identifiers from raw names

A raw name of the description becomes an identifier of the client: ASCII letters,
digits and underscores, in the case that its use calls for, not beginning with a
digit, and no reserved word.

## Main definitions

* `Case` — the two conventions.
* `identifierOf` — the identifier of a raw name.
-/

namespace ApiBinding

/-- How the words of an identifier are joined. -/
inductive Case where
  /-- Small words joined by underscores: callables, fields, parameters. -/
  | snake
  /-- Capitalised words: models and enum members. -/
  | upperCamel
  deriving DecidableEq, Repr, Inhabited

namespace Case

/-- Recase a text. -/
def apply : Case → List Char → List Char
  | .snake => snakeCase
  | .upperCamel => upperCamelCase

/-- The name of what has no letter and no digit in its raw name. -/
def placeholder : Case → String
  | .snake => "unnamed"
  | .upperCamel => "Unnamed"

end Case

/-- A character that an identifier may contain. -/
def isIdentifierChar (c : Char) : Bool := c.isAlphanum || c == '_'

/-- Every character outside the identifier alphabet becomes a break between
words. -/
def blankOut (cs : List Char) : List Char :=
  cs.map fun c => if isIdentifierChar c then c else ' '

/-- Put an underscore before a leading digit. -/
def guardDigit : List Char → List Char
  | [] => []
  | c :: rest => if c.isDigit then '_' :: c :: rest else c :: rest

/-- The identifier of a raw name before reserved words are considered. -/
def plainIdentifier (case : Case) (raw : String) : String :=
  let recased := case.apply (blankOut raw.toList)
  if recased.isEmpty then case.placeholder else String.ofList (guardDigit recased)

/-- The identifier of a raw name; a reserved word gets an underscore at its end. -/
def identifierOf (case : Case) (reserved : NamingConfig) (raw : String) : String :=
  let name := plainIdentifier case raw
  if reserved.reserves name then name ++ "_" else name

end ApiBinding
