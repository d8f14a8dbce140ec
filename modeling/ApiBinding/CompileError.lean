/-!
# Why a description cannot be compiled

These causes concern the description as a whole: no client is generated.

## Main definitions

* `PathFault`, `CompileError` — the causes.
* `CompileError.message` — the words for them.
-/

namespace ApiBinding

/-- What is wrong with a path. -/
inductive PathFault where
  | noLeadingSlash
  | nestedBrace
  | unmatchedBrace
  | unclosedBrace
  deriving DecidableEq, Repr, Inhabited

/-- The words for a fault. -/
def PathFault.text : PathFault → String
  | .noLeadingSlash => "path must start with `/`"
  | .nestedBrace => "nested `\x7b`"
  | .unmatchedBrace => "unmatched `\x7d`"
  | .unclosedBrace => "unclosed `\x7b`"

/-- Why a description cannot be compiled. -/
inductive CompileError where
  /-- A reference leads to no schema. -/
  | brokenReference (pointer location : String)
  /-- A reference does not lead into the components. -/
  | unsupportedReference (pointer : String)
  /-- A composition contains itself; the chain ends where it begins. -/
  | cyclicComposition (chain : List String)
  /-- A cycle passes through a schema that has no name to refer back to. -/
  | unrepresentableCycle (pointer : String)
  /-- A variant of a tagged union has no tag. -/
  | missingDiscriminator (location variant property : String)
  /-- A key of the path table is no path. -/
  | malformedPath (path : String) (fault : PathFault)
  deriving DecidableEq, Repr, Inhabited

/-- The words for a cause. -/
def CompileError.message : CompileError → String
  | .brokenReference pointer location => s!"broken reference `{pointer}` (at {location})"
  | .unsupportedReference pointer =>
    s!"unsupported reference `{pointer}`: only `#/components/schemas/...` pointers resolve"
  | .cyclicComposition chain => "cyclic allOf composition: " ++ " -> ".intercalate chain
  | .unrepresentableCycle pointer =>
    s!"cycle through `{pointer}` cannot be represented as a named back-reference"
  | .missingDiscriminator location variant property =>
    s!"variant `{variant}` of `{location}` has no value for discriminator `{property}`"
  | .malformedPath path fault =>
    "malformed path table entry `" ++ path ++ "`: " ++ fault.text

end ApiBinding
