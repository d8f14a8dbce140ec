import ApiBinding.Resolver.Build

/-!
# Resolving references

The steps of a resolution are put together.  Their nesting is bounded: every
pointer is open at most twice, once in the ordinary way and once more as a
fragment, and between two frames a resolution only descends into a schema.  The
bound is computed from the size of the description and of the request.

## Main definitions

* `Document.follow` — answers requests, up to a depth of nested steps.
* `Document.resolve`, `Document.resolveComponent`, `Document.resolveSchema` — the
  node of a pointer, of a component, and of a schema somewhere else in the
  description.
-/

namespace ApiBinding

namespace Document

/-- Answer a request with at most the given number of nested steps. -/
def follow (d : Document) : Nat → Follow
  | 0, _ => throw .exhausted
  | depth + 1, request => Follow.step (d.follow depth) d request

/-- A number of nested steps that suffices when the components and the request
hold `n` schemas.  Each schema holds at most one reference, each reference names
two pointers (its own and that of its component), and each pointer is open at
most twice; between two frames lie at most `n` nested schemas. -/
def stepBound (n : Nat) : Nat := (4 * n + 6) * (n + 4)

/-- The node of a pointer. -/
def resolve (d : Document) (pointer : String) : Resolution Node :=
  d.follow (stepBound d.size) (.reference pointer pointer false)

/-- The node of a component. -/
def resolveComponent (d : Document) (name : String) : Resolution Node :=
  d.resolve (Pointer.component name)

/-- The node of a schema that stands somewhere else in the description.  It is not
kept. -/
def resolveSchema (d : Document) (schema : Schema) (location : String) : Resolution Node :=
  d.follow (stepBound (d.size + schema.size)) (.schema schema location none false)

end Document

end ApiBinding
