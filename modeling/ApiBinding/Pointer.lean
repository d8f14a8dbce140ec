/-!
# Pointers into a description

A pointer is a text of tokens with slashes between them.  A slash or a tilde that
belongs to a token is escaped.  References point to the schemas of components,
either to a whole component or to a schema inside one.

## Main definitions

* `Pointer.escape`, `Pointer.unescape` — a token in a pointer.
* `Pointer.component`, `Pointer.componentName?` — the pointer to a whole
  component, and the component that a pointer addresses as a whole.
* `Pointer.tokens?` — the component and the steps of a pointer.
-/

namespace ApiBinding

namespace Pointer

/-! ### Tokens -/

/-- A token with its tildes and slashes escaped. -/
def escapeChars : List Char → List Char
  | [] => []
  | '~' :: rest => '~' :: '0' :: escapeChars rest
  | '/' :: rest => '~' :: '1' :: escapeChars rest
  | c :: rest => c :: escapeChars rest

/-- A token with its escapes resolved; a tilde before any other character stands
for itself. -/
def unescapeChars : List Char → List Char
  | [] => []
  | '~' :: '0' :: rest => '~' :: unescapeChars rest
  | '~' :: '1' :: rest => '/' :: unescapeChars rest
  | c :: rest => c :: unescapeChars rest

/-- A token as it stands in a pointer. -/
def escape (token : String) : String := String.ofList (escapeChars token.toList)

/-- The token that a part of a pointer stands for. -/
def unescape (part : String) : String := String.ofList (unescapeChars part.toList)

/-- The parts of a text between slashes; there is always one. -/
def splitSlashes : List Char → List Char × List (List Char)
  | [] => ([], [])
  | c :: rest =>
    let (part, parts) := splitSlashes rest
    if c = '/' then ([], part :: parts) else (c :: part, parts)

/-! ### Components -/

/-- What every pointer into a component begins with. -/
def componentRoot : String := "#/components/schemas/"

/-- The text behind the component root. -/
def afterRoot? (pointer : String) : Option (List Char) :=
  let root := componentRoot.toList
  let cs := pointer.toList
  if root.isPrefixOf cs then some (cs.drop root.length) else none

/-- The pointer to a whole component. -/
def component (name : String) : String := componentRoot ++ escape name

/-- The component that a pointer addresses as a whole: nothing but the component's
token stands behind the root. -/
def componentName? (pointer : String) : Option String := do
  let rest ← afterRoot? pointer
  if rest.isEmpty ∨ '/' ∈ rest then none
  else some (String.ofList (unescapeChars rest))

/-- The component of a pointer and the steps into it. -/
def tokens? (pointer : String) : Option (String × List String) := do
  let (first, more) := splitSlashes (← afterRoot? pointer)
  let token (part : List Char) := String.ofList (unescapeChars part)
  return (token first, more.map token)

/-- A pointer for a human reader: without the component root, escapes resolved. -/
def display (pointer : String) : String :=
  match afterRoot? pointer with
  | some rest => String.ofList (unescapeChars rest)
  | none => pointer

/-! ### Places of operations -/

/-- The place of an operation, its method in small letters. -/
def operation (path methodKey : String) : String :=
  "#/paths/" ++ escape path ++ "/" ++ methodKey

end Pointer

end ApiBinding
