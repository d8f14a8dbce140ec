import ApiBinding.Diagnostic
import ApiBinding.Node

/-!
# Merging the fragments of a composition

The fragments of an `allOf` list become one object: properties in order of first
declaration, each with the schema of its last declaration, required names
together, and the last schema for other keys.  A fragment that is no object has
nothing to contribute, unless it is the only one that says anything.

## Main definitions

* `ObjectParts` — an object under construction.
* `ObjectParts.addFragment` — the contribution of one fragment.
* `mergeFragments` — the body of a composition, with its findings.
-/

namespace ApiBinding

/-- An object under construction. -/
structure ObjectParts where
  properties : Table String Node := []
  required : List String := []
  additional : Option Node := none
  deriving Repr

namespace ObjectParts

/-- The finding about a property that two fragments declare differently. -/
def conflict (location key : String) (index : Nat) : Diagnostic :=
  .warning .allOfConflict location
    ("property `" ++ key ++ "` is redeclared by fragment " ++ toString index ++
      " with a different schema; the later declaration wins")

/-- The finding about a fragment that is no object. -/
def nonObject (location : String) (index : Nat) : Diagnostic :=
  .warning .allOfNonObjectFragment location
    ("fragment " ++ toString index ++ " is not an object and was not merged")

/-- The finding, if any, about declaring a property once more. -/
def redeclaration (location : String) (index : Nat) (declared : Table String Node)
    (key : String) (node : Node) : List Diagnostic :=
  match Table.get? declared key with
  | some existing => if existing.same node then [] else [conflict location key index]
  | none => []

/-- Declare the properties of a fragment, one after the other. -/
def addProperties (location : String) (index : Nat) :
    Table String Node → List (String × Node) → Table String Node × List Diagnostic
  | declared, [] => (declared, [])
  | declared, (key, node) :: rest =>
    let (all, findings) :=
      addProperties location index (Table.insert declared key node) rest
    (all, redeclaration location index declared key node ++ findings)

/-- The contribution of the fragment at an index. -/
def addFragment (location : String) (index : Nat) (parts : ObjectParts) (fragment : Node) :
    ObjectParts × List Diagnostic :=
  match fragment.shape with
  | .object properties required additional =>
    let (all, findings) := addProperties location index parts.properties properties
    ({ properties := all
       required := extendNew parts.required required
       additional := additional.or parts.additional }, findings)
  | .any => (parts, [])
  | _ => (parts, [nonObject location index])

/-- The contributions of fragments, the first of which stands at an index. -/
def addFragments (location : String) :
    Nat → ObjectParts → List Node → ObjectParts × List Diagnostic
  | _, parts, [] => (parts, [])
  | index, parts, fragment :: rest =>
    let (parts, findings) := parts.addFragment location index fragment
    let (parts, more) := addFragments location (index + 1) parts rest
    (parts, findings ++ more)

/-- The finished object. -/
def toBody (parts : ObjectParts) : Body :=
  ⟨.object parts.properties parts.required parts.additional, false⟩

end ObjectParts

/-- The object that all fragments together make. -/
def mergeObjects (fragments : List Node) (location : String) : Body × List Diagnostic :=
  let (parts, findings) := ObjectParts.addFragments location 0 {} fragments
  (parts.toBody, findings)

/-- The body of a composition.  Without an object among the fragments, the only
fragment that says anything is the result, and none says nothing. -/
def mergeFragments (fragments : List Node) (location : String) : Body × List Diagnostic :=
  if fragments.any fun f => f.shape.isObject then mergeObjects fragments location
  else
    match fragments.filter fun f => !f.shape.isAny with
    | [] => (⟨.any, false⟩, [])
    | [only] => (only.body, [])
    | _ => mergeObjects fragments location

end ApiBinding
