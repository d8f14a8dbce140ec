import ApiBinding.CompileError
import ApiBinding.Diagnostic
import ApiBinding.Document.Basic
import ApiBinding.Json.Printer
import ApiBinding.Node
import ApiBinding.Pointer

/-!
# Unions

The members of a `oneOf` or `anyOf` list become the variants of a union.  A member
that is `null` only makes the union nullable.  A `oneOf` with a discriminator is
tagged: every variant then has a tag, which is, in this order, a mapped value that
stands for its component, the one literal of its discriminator property, or the
name of its component if it declares the property at all.

## Main definitions

* `UnionKeyword`, `Variant`, `DeclaredTag` — what a union is made of.
* `tagOf` — the tag of a variant.
* `classify` — the body of a union, with its findings.
-/

namespace ApiBinding

/-- The keywords that make a union. -/
inductive UnionKeyword where
  | oneOf
  | anyOf
  deriving DecidableEq, Repr, Inhabited

/-- The keyword as it is written. -/
def UnionKeyword.key : UnionKeyword → String
  | .oneOf => "oneOf"
  | .anyOf => "anyOf"

/-- How a variant declares the discriminator property. -/
inductive DeclaredTag where
  | undeclared
  /-- Declared, but not with a single value. -/
  | free
  /-- Declared with exactly one value. -/
  | literal (value : Json)
  deriving Repr, Inhabited

/-- The declaration that a property with this single literal, if any, makes. -/
def DeclaredTag.ofLiteral? : Option Json → DeclaredTag
  | some value => .literal value
  | none => .free

/-- A resolved member of a union. -/
structure Variant where
  node : Node
  /-- The component that the member refers to as a whole. -/
  component : Option String := none
  /-- What the unresolved schema says about the discriminator property; used for a
  back reference, whose node is not finished. -/
  declared : Option DeclaredTag := none
  deriving Repr

namespace Variant

/-- How the variant declares a property. -/
def declaredTag (v : Variant) (property : String) : DeclaredTag :=
  match v.node.shape with
  | .backRef _ => v.declared.getD .undeclared
  | shape =>
    match Table.get? shape.properties property with
    | some node => .ofLiteral? node.shape.singleLiteral?
    | none => .undeclared

end Variant

/-! ### Tags -/

/-- The component that a mapping value stands for: it is a pointer or a name. -/
def mappingTarget (target : String) : String := (Pointer.componentName? target).getD target

/-- The first mapped value that stands for a component. -/
def mappedTag? (d : Discriminator) (component : String) : Option String :=
  (d.mapping.find? fun e => mappingTarget e.2 == component).map Prod.fst

/-- The tag that the declaration of the discriminator property makes. -/
def declaredTag? (declared : DeclaredTag) (component : Option String) : Option String :=
  match declared, component with
  | .literal value, _ => some value.label
  | .free, some component => some component
  | _, _ => none

/-- The tag of a variant. -/
def tagOf? (d : Discriminator) (v : Variant) : Option String :=
  (v.component.bind (mappedTag? d)).or
    (declaredTag? (v.declaredTag d.propertyName) v.component)

/-- What an error calls the variant at an index: its component or the index. -/
def variantLabel (index : Nat) (v : Variant) : String :=
  v.component.getD ("#" ++ toString index)

/-- The tags of variants, the first of which stands at an index. -/
def tagsOf (d : Discriminator) (location : String) :
    Nat → List Variant → Except CompileError (List String)
  | _, [] => .ok []
  | index, v :: rest =>
    match tagOf? d v with
    | none => .error (.missingDiscriminator location (variantLabel index v) d.propertyName)
    | some tag => (tagsOf d location (index + 1) rest).map (tag :: ·)

/-! ### The union -/

/-- The finding about a discriminator that cannot be used. -/
def ignoredDiscriminator (d : Discriminator) (location : String) : Diagnostic :=
  .warning .ignoredDiscriminator location
    s!"discriminator `{d.propertyName}` on anyOf is ignored; the union stays untagged"

/-- How the variants of a union are picked, with the findings about it. -/
def taggingOf (keyword : UnionKeyword) (variants : List Variant)
    (discriminator : Option Discriminator) (location : String) :
    Except CompileError (Tagging × List Diagnostic) :=
  match discriminator, keyword with
  | none, _ => .ok (.untagged, [])
  | some d, .anyOf => .ok (.untagged, [ignoredDiscriminator d location])
  | some d, .oneOf =>
    (tagsOf d location 0 variants).map fun tags => (.tagged d.propertyName tags, [])

/-- The body of a union. -/
def classify (keyword : UnionKeyword) (variants : List Variant)
    (discriminator : Option Discriminator) (location : String) :
    Except CompileError (Body × List Diagnostic) :=
  let kept := variants.filter fun v => !v.node.shape.isNull
  let nullable := variants.any fun v => v.node.shape.isNull
  (taggingOf keyword kept discriminator location).map fun (tagging, findings) =>
    (⟨.union (kept.map Variant.node) tagging, nullable⟩, findings)

end ApiBinding
