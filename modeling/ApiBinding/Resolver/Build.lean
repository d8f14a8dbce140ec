import ApiBinding.Composition.Merge
import ApiBinding.Composition.Union
import ApiBinding.Document.Lookup
import ApiBinding.Resolver.Session

/-!
# One step of a resolution

Resolving a schema means to make a node for it; on the way, references are
followed and the schemas inside are resolved.  This module says what one step
does.  Every step takes as an argument what to do about the requests it leads to,
so each of them is an ordinary definition; the recursion is tied elsewhere.

* A plain reference leads to the kept node of its pointer.  If the pointer is
  open, a back reference stands in for a whole component, and there is no answer
  for a part of one.  A pointer to a part is looked up in the node of its
  component if that leads there.
* A reference that is a fragment of a composition is expanded: what counts is
  what the fragment contains, so a pointer that is open for another reason is
  expanded a second time, and its node is not kept.  A pointer that the
  composition at hand has passed through already makes a cycle.

## Main definitions

* `Request`, `Follow` — what can be asked for, and how to answer it.
* `Follow.reference`, `Follow.fragment`, `Follow.schema` — one step for each kind
  of request.
-/

namespace ApiBinding

/-- What a resolution can be asked for. -/
inductive Request where
  /-- The node of a pointer, for a plain reference.  `link` says that the pointer,
  if it is entered, is a fragment of the composition at hand. -/
  | reference (pointer location : String) (link : Bool)
  /-- The node of a pointer, for a fragment of a composition; `spine` says that the
  composition is the one of the innermost frame. -/
  | fragment (pointer location : String) (spine : Bool)
  /-- The node of a schema; `name` is the component it is the body of, and `spine`
  says that it belongs to the composition of the innermost frame. -/
  | schema (schema : Schema) (location : String) (name : Option String) (spine : Bool)
  deriving Repr

/-- How requests are answered. -/
abbrev Follow : Type := Request → Resolution Node

open Resolution

namespace Follow

variable (follow : Follow) (d : Document)

/-! ### References -/

/-- The node of a schema that is only a reference: the target itself, unless the
schema is the body of a component or adds `null` to the target. -/
def referring (target : Node) (schema : Schema) (name : Option String) : Resolution Node :=
  if name.isNone && (!schema.isNullable || target.nullable) then pure target
  else annotate ⟨.union [target] .untagged, schema.isNullable⟩ schema name

/-- Resolve what a pointer addresses inside a frame of its own. -/
def expand (pointer : String) (target : Target) (link fresh : Bool) : Resolution Node :=
  within ⟨pointer, link, fresh⟩ <|
    follow (.schema target.schema pointer
      (if target.isComponent then some target.component else none) true)

/-- The node of a part of a component, if the component is not open and its node
contains the part. -/
def partOf (target : Target) (location : String) : Resolution (Option Node) := do
  if target.isComponent then return none
  let root := Pointer.component target.component
  if (← get).inProgress root then return none
  let node ← follow (.reference root location false)
  return node.at? target.steps

/-- The back reference to an open component, which admits `null` if the component
says so itself. -/
def backReference (target : Target) : Resolution Node :=
  issue ⟨.backRef target.component, target.schema.isNullable⟩ none none none

/-- The node of a pointer that is neither kept nor open. -/
def enter (pointer location : String) (target : Target) (link : Bool) : Resolution Node := do
  let node ← match ← partOf follow target location with
    | some node => pure node
    | none => expand follow pointer target link false
  remember pointer node
  return node

/-- Answer a plain reference. -/
def reference (pointer location : String) (link : Bool) : Resolution Node := do
  let target ← ofExcept (d.target pointer location)
  let s ← get
  match Table.get? s.cache pointer with
  | some node => return node
  | none =>
    if s.inProgress pointer then
      if target.isComponent then backReference target
      else reject (.unrepresentableCycle pointer)
    else enter follow pointer location target link

/-- The chain that an error shows for a pointer which the composition at hand has
passed through: from there to here. -/
def cycleChain (chain : List String) (pointer : String) : List String :=
  let between := chain.takeWhile (· ≠ pointer)
  (pointer :: between.reverse ++ [pointer]).map Pointer.display

/-- Answer a reference that is a fragment of a composition. -/
def fragment (pointer location : String) (spine : Bool) : Resolution Node := do
  let target ← ofExcept (d.target pointer location)
  let s ← get
  if spine && s.compositionChain.contains pointer then
    reject (.cyclicComposition (cycleChain s.compositionChain pointer))
  else if s.inProgress pointer then
    if s.inFreshProgress pointer then reject (.unrepresentableCycle pointer)
    else expand follow pointer target spine true
  else reference follow d pointer location spine

/-! ### Objects and arrays -/

/-- The schema of the keys beyond the properties. -/
def additionalNode (schema : Schema) (location : String) : Resolution (Option Node) :=
  match schema.additional with
  | none => return none
  | some (.permitted false) => return none
  | some (.permitted true) => do return some (← issuePlain .any)
  | some (.schema inner) => do
    return some (← follow (.schema inner (location ++ "/additionalProperties") none false))

/-- A property and its node. -/
def propertyNode (location : String) (property : String × Schema) :
    Resolution (String × Node) := do
  let place := location ++ "/properties/" ++ Pointer.escape property.1
  return (property.1, ← follow (.schema property.2 place none false))

/-- The object that a schema declares. -/
def object (schema : Schema) (location : String) : Resolution (Shape Node) := do
  let properties ← each (propertyNode follow location) schema.properties
  let additional ← additionalNode follow schema location
  return .object properties (distinct schema.required) additional

/-- The array that a schema declares. -/
def array (schema : Schema) (location : String) : Resolution (Shape Node) :=
  match schema.items with
  | some items => do return .array (← follow (.schema items (location ++ "/items") none false))
  | none => do return .array (← issuePlain .any)

/-- The shape for one type name. -/
def typed (typeName : String) (schema : Schema) (location : String) :
    Resolution (Shape Node) :=
  match typeName with
  | "string" => return .scalar .string schema.format
  | "integer" => return .scalar .integer schema.format
  | "number" => return .scalar .float schema.format
  | "boolean" => return .scalar .bool schema.format
  | "object" => object follow schema location
  | "array" => array follow schema location
  | _ => return .any

/-- The shape of a schema without type names, from what else it declares. -/
def untyped (schema : Schema) (location : String) : Resolution (Shape Node) :=
  if schema.isNullType then return .null
  else if !schema.properties.isEmpty || !schema.required.isEmpty || schema.additional.isSome then
    object follow schema location
  else if schema.items.isSome then array follow schema location
  else return .any

/-- The shape of a schema from its type names; several of them make a union. -/
def plainShape (schema : Schema) (location : String) : Resolution (Shape Node) :=
  match schema.typeNames with
  | [] => untyped follow schema location
  | [single] => typed follow single schema location
  | many => do
    let variants ← each (fun name => do issuePlain (← typed follow name schema location)) many
    return .union variants .untagged

/-! ### Literals -/

/-- The body for a list of values: the values other than `null`, which makes the
body nullable. -/
def literals (values : List Json) : Body :=
  let kept := values.filter fun v => !v.isNull
  ⟨if kept.isEmpty then .null else .enumeration kept, values.any Json.isNull⟩

/-! ### Unions -/

/-- What the unresolved schema of a back reference says about a discriminator. -/
def declaredBy (schema : Schema) (node : Node) : Option DeclaredTag := do
  let component ← node.shape.backRef?
  let discriminator ← schema.discriminator
  return d.declaredTag component discriminator.propertyName

/-- The variant for the member of a union at an index. -/
def variant (schema : Schema) (keyword : UnionKeyword) (location : String) (index : Nat)
    (member : Schema) : Resolution Variant := do
  let place := location ++ "/" ++ keyword.key ++ "/" ++ toString index
  let node ← follow (.schema member place none false)
  return { node, component := Document.wholeReference? member,
           declared := declaredBy d schema node }

/-- The node of a union. -/
def union (schema : Schema) (keyword : UnionKeyword) (members : List Schema)
    (location : String) (name : Option String) : Resolution Node := do
  let variants ← eachFrom (variant follow d schema keyword location) 0 members
  let (body, findings) ← ofExcept (classify keyword variants schema.discriminator location)
  report findings
  annotate body schema name

/-! ### Compositions -/

/-- The pointer of a composition that only wraps one reference: a single fragment,
no properties, not the body of a component, and no part of another
composition. -/
def wrapped? (schema : Schema) (name : Option String) (spine : Bool) : Option String :=
  match schema.allOf with
  | [only] =>
    if name.isNone && !spine && schema.properties.isEmpty then only.reference else none
  | _ => none

/-- The node of the fragment of a composition at an index. -/
def fragmentNode (location : String) (spine : Bool) (index : Nat) (schema : Schema) :
    Resolution Node :=
  let place := location ++ "/allOf/" ++ toString index
  match schema.reference with
  | some pointer => follow (.fragment pointer place spine)
  | none => follow (.schema schema place none spine)

/-- The fragment that the composition itself adds, if it declares properties or
requires some. -/
def ownFragment (schema : Schema) (location : String) : Resolution (List Node) :=
  if schema.properties.isEmpty && schema.required.isEmpty then return []
  else do
    let own ← object follow schema location
    return [← issuePlain own]

/-- The node of a composition. -/
def composition (schema : Schema) (location : String) (name : Option String) (spine : Bool) :
    Resolution Node :=
  match wrapped? schema name spine with
  | some pointer => do
    let target ← follow (.reference pointer (location ++ "/allOf/0") false)
    referring target schema none
  | none => do
    let fragments ← eachFrom (fragmentNode follow location spine) 0 schema.allOf
    let own ← ownFragment follow schema location
    let (body, findings) := mergeFragments (fragments ++ own) location
    report findings
    annotate body schema name

/-! ### Schemas -/

/-- Resolve a schema.  A reference hides all other keywords, then come
compositions, unions, values and types. -/
def schema (schema : Schema) (location : String) (name : Option String) (spine : Bool) :
    Resolution Node :=
  match schema.reference with
  | some pointer => do
    let target ← follow (.reference pointer location false)
    referring target schema name
  | none =>
    if !schema.allOf.isEmpty then composition follow schema location name spine
    else if !schema.oneOf.isEmpty then union follow d schema .oneOf schema.oneOf location name
    else if !schema.anyOf.isEmpty then union follow d schema .anyOf schema.anyOf location name
    else
      match schema.enumeration, schema.constant with
      | some values, _ => annotate (literals values) schema name
      | none, some value => annotate (literals [value]) schema name
      | none, none => do
        let shape ← plainShape follow schema location
        annotate ⟨shape, false⟩ schema name

/-- One step for any request. -/
def step : Request → Resolution Node
  | .reference pointer location link => reference follow d pointer location link
  | .fragment pointer location spine => fragment follow d pointer location spine
  | .schema s location name spine => schema follow d s location name spine

end Follow

end ApiBinding
