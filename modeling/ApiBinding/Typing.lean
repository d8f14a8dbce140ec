import ApiBinding.Json.Printer
import ApiBinding.Node
import ApiBinding.Registry

/-!
# Types and models of resolved schemas

A node has a type.  A component is referred to by the name of its model.  An
object with properties, an enumeration and a tagged union that is no component
becomes a model of its own, named after the place where it is used; all other
nodes have a type made of the types of their parts.

## Main definitions

* `ScalarKind.withFormat` — the kind of a scalar with a format.
* `Workbench`, `Typing` — the models under construction and the findings.
* `Typing.nodeType` — the type of a node at a place of use.
* `Typing.fillComponent` — the body of a component's model.
-/

namespace ApiBinding

/-- The kind of a scalar with a format: a decimal number is never a float, and
binary strings are bytes. -/
def ScalarKind.withFormat (kind : ScalarKind) (format : Option String) : ScalarKind :=
  match kind, format with
  | .float, some "decimal" => .decimal
  | .string, some "binary" => .bytes
  | .string, some "byte" => .bytes
  | kind, _ => kind

/-- The models under construction and the findings so far. -/
structure Workbench where
  registry : Registry := {}
  diagnostics : List Diagnostic := []
  deriving Repr, Inhabited

/-- A computation that makes types and models. -/
abbrev Typing : Type → Type := StateM Workbench

namespace Typing

/-- Report findings. -/
def report (findings : List Diagnostic) : Typing Unit :=
  modify fun w => { w with diagnostics := w.diagnostics ++ findings }

/-- The model name of a component. -/
def componentModel? (component : String) : Typing (Option String) := do
  return (← get).registry.componentModel? component

/-- A free name in a scope of its own, and the scope without it. -/
def allocate (naming : NamingConfig) (scope : NameScope) (raw location : String) :
    Typing (String × NameScope) := do
  let (name, scope, findings) := allocateName naming scope raw location
  report findings
  return (name, scope)

/-- Reserve the model name of a component. -/
def reserveComponent (naming : NamingConfig) (component : String) : Typing String := fun w =>
  let (name, registry, findings) := w.registry.reserveComponent naming component
  (name, { registry := registry, diagnostics := w.diagnostics ++ findings })

/-- Reserve a slot for a node that is no component. -/
def reserveInline (naming : NamingConfig) (serial : Nat) (hint location : String) :
    Typing Registry.Reservation := fun w =>
  let (reservation, registry, findings) := w.registry.reserveInline naming serial hint location
  (reservation, { registry := registry, diagnostics := w.diagnostics ++ findings })

/-- Change the registry. -/
def modifyRegistry (change : Registry → Registry) : Typing Unit :=
  modify fun w => { w with registry := change w.registry }

/-- The reference to the model of a node that is no component; its body is made
when the node is met for the first time. -/
def inlineModel (naming : NamingConfig) (serial : Nat) (description : Option String)
    (hint location : String) (body : String → Typing ModelBody) : Typing TypeRef := do
  let reservation ← reserveInline naming serial hint location
  if reservation.new then
    let body ← body reservation.name
    modifyRegistry fun r => r.fill reservation.index description body
  return .reference reservation.name

/-- The members of an enumeration, the first of which stands at an index. -/
def enumMembers (naming : NamingConfig) (location : String) :
    Nat → NameScope → List Json → Typing (List EnumMember)
  | _, _, [] => return []
  | index, scope, value :: rest => do
    let place := location ++ "/enum/" ++ toString index
    let (name, scope) ← allocate naming scope value.label place
    let members ← enumMembers naming location (index + 1) scope rest
    return { name, value } :: members

/-- The body of an enumeration. -/
def enumBody (naming : NamingConfig) (values : List Json) (location : String) :
    Typing ModelBody := do
  return .enumeration (← enumMembers naming location 0 { case := .upperCamel } values)

/-- What a hint calls the member of a union at an index. -/
def optionHint (hint : String) (index : Nat) : String := hint ++ "Option" ++ toString (index + 1)

/-- The variants of a union from their types and tags. -/
def tagVariants (types : List TypeRef) (tags : List String) : List UnionVariant :=
  types.zipIdx.map fun (type, index) => { type := type, tag := tags[index]? }

/-- The discriminator and the tags of a union. -/
def taggingParts : Tagging → Option String × List String
  | .untagged => (none, [])
  | .tagged property tags => (some property, tags)

mutual

/-- The type of a node at a place of use: the model of its component, or the type
of its shape.  `hint` names a model that is made on the way. -/
def nodeType (naming : NamingConfig) : Node → String → String → Typing TypeRef
  | ⟨serial, shape, nullable, name, description, _⟩, hint, location => do
    let model ← match name with
      | some component => componentModel? component
      | none => pure none
    let type ← match model with
      | some model => pure (.reference model)
      | none => shapeType naming serial description shape hint location
    return if nullable then type.optionalOf else type

/-- The type of a shape. -/
def shapeType (naming : NamingConfig) (serial : Nat) (description : Option String) :
    Shape Node → String → String → Typing TypeRef
  | .any, _, _ => return .any
  | .null, _, _ => return .optional .any
  | .scalar kind format, _, _ => return .scalar (kind.withFormat format)
  | .array items, hint, location => do
    return .list (← nodeType naming items (hint ++ "Item") (location ++ "/items"))
  | .object properties required additional, hint, location =>
    if properties.isEmpty then do
      return .dict ((← additionalType naming additional hint location).getD .any)
    else
      inlineModel naming serial description hint location fun name => do
        let fields ← fields naming properties required { case := .snake } name location
        return .object fields (← additionalType naming additional name location)
  | .enumeration values, hint, location =>
    inlineModel naming serial description hint location fun _ =>
      enumBody naming values location
  | .union variants (.tagged property tags), hint, location =>
    inlineModel naming serial description hint location fun name => do
      let types ← memberTypes naming 0 variants name location
      return .union (tagVariants types tags) (some property)
  | .union variants .untagged, hint, location => do
    return .unionOf (← memberTypes naming 0 variants hint location)
  | .backRef component, _, _ => do
    return ((← componentModel? component).map .reference).getD .any

/-- The type of the keys beyond the properties. -/
def additionalType (naming : NamingConfig) :
    Option Node → String → String → Typing (Option TypeRef)
  | none, _, _ => return none
  | some node, hint, location => do
    return some (← nodeType naming node (hint ++ "Value") (location ++ "/additionalProperties"))

/-- The fields of a record. -/
def fields (naming : NamingConfig) :
    List (String × Node) → List String → NameScope → String → String → Typing (List Field)
  | [], _, _, _, _ => return []
  | (wireName, node) :: rest, required, scope, modelName, location => do
    let place := location ++ "/properties/" ++ Pointer.escape wireName
    let (name, scope) ← allocate naming scope wireName place
    let type ← nodeType naming node (modelName ++ camelHint wireName) place
    let field : Field :=
      { name, wireName, type, required := required.contains wireName
        docstring := if node.name.isNone then node.description else none
        default := node.default }
    let more ← fields naming rest required scope modelName location
    return field :: more

/-- The types of the members of a union, the first of which stands at an index. -/
def memberTypes (naming : NamingConfig) :
    Nat → List Node → String → String → Typing (List TypeRef)
  | _, [], _, _ => return []
  | index, node :: rest, hint, location => do
    let type ← nodeType naming node (optionHint hint index) location
    let more ← memberTypes naming (index + 1) rest hint location
    return type :: more

end

/-! ### Bodies of components -/

/-- The body of a model that is another name for a type. -/
def aliasBody (naming : NamingConfig) (node : Node) (modelName location : String) :
    Typing ModelBody := do
  return .alias (← shapeType naming node.serial node.description node.shape modelName location)

/-- The body of a union model. -/
def unionBody (naming : NamingConfig) (variants : List Node) (tagging : Tagging)
    (modelName location : String) : Typing ModelBody := do
  let types ← memberTypes naming 0 variants modelName location
  let (discriminator, tags) := taggingParts tagging
  return .union (tagVariants types tags) discriminator

/-- The body of a component's model.  Only an object with properties, an
enumeration, and a union that is tagged or has several variants have a body of
their own; every other model is another name for a type. -/
def modelBody (naming : NamingConfig) (node : Node) (modelName location : String) :
    Typing ModelBody :=
  match node.shape with
  | .object properties required additional =>
    if properties.isEmpty then aliasBody naming node modelName location
    else do
      let fields ← fields naming properties required { case := .snake } modelName location
      return .object fields (← additionalType naming additional modelName location)
  | .enumeration values => enumBody naming values location
  | .union variants tagging =>
    if tagging = .untagged ∧ variants.length ≤ 1 then aliasBody naming node modelName location
    else unionBody naming variants tagging modelName location
  | _ => aliasBody naming node modelName location

/-- Fill the model of a component, if its name is reserved. -/
def fillComponent (naming : NamingConfig) (component : String) (node : Node)
    (location : String) : Typing Unit := do
  match ← componentModel? component with
  | none => return
  | some modelName =>
    let body ← modelBody naming node modelName location
    modifyRegistry fun r => r.fillComponent component node.description body

end Typing

end ApiBinding
