import ApiBinding.CompileError
import ApiBinding.Ordered

/-!
# Path templates

A path begins with a slash; names in braces stand for path parameters.  Braces do
not nest and come in pairs.  A name that is empty or contains a slash does not
make the path malformed, but no operation of the path is then valid.

## Main definitions

* `PathTemplate` — the placeholders of a path.
* `PathTemplate.groups` — the names in braces, from left to right.
* `PathTemplate.ofPath` — the template of a path.
-/

namespace ApiBinding

/-- The placeholders of a path. -/
structure PathTemplate where
  /-- The distinct names, from left to right. -/
  placeholders : List String
  /-- The first placeholder, braces included, whose name cannot be one. -/
  invalid : Option String
  deriving DecidableEq, Repr, Inhabited

namespace PathTemplate

/-- The names in braces, from left to right.  Inside a group, the first argument
holds the characters of its name so far. -/
def groups : Option (List Char) → List Char → Except PathFault (List (List Char))
  | none, [] => .ok []
  | some _, [] => .error .unclosedBrace
  | none, c :: rest =>
    if c = '\x7b' then groups (some []) rest
    else if c = '\x7d' then .error .unmatchedBrace
    else groups none rest
  | some name, c :: rest =>
    if c = '\x7b' then .error .nestedBrace
    else if c = '\x7d' then (groups none rest).map (name :: ·)
    else groups (some (name ++ [c])) rest

/-- Whether a name can be a placeholder. -/
def isName (name : List Char) : Bool := !name.isEmpty && !name.contains '/'

/-- The template with the given names in braces. -/
def ofGroups (names : List (List Char)) : PathTemplate where
  placeholders := distinct ((names.filter isName).map String.ofList)
  invalid := (names.find? fun name => !isName name).map fun name =>
    String.ofList ('\x7b' :: name ++ ['\x7d'])

/-- The template of a path. -/
def ofPath (path : String) : Except CompileError PathTemplate :=
  match path.toList with
  | '/' :: rest =>
    match groups none ('/' :: rest) with
    | .ok names => .ok (ofGroups names)
    | .error fault => .error (.malformedPath path fault)
  | _ => .error (.malformedPath path .noLeadingSlash)

end PathTemplate

end ApiBinding
