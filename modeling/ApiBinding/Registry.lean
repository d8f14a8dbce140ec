import ApiBinding.Client.Model
import ApiBinding.Naming.Scope
import ApiBinding.Pointer

/-!
# Models under construction

Every model has a slot.  Its name is reserved before its body exists, so that
models can refer to each other in cycles; the body is filled in later.  The models
of components are found by the component, the models of other schemas by the node
they were made for.

## Main definitions

* `Slot`, `Registry` — the models under construction.
* `Registry.reserveComponent`, `Registry.reserveInline` — new slots.
* `Registry.fill` — the body of a slot.
* `Registry.finish` — the finished models, with the unions they belong to.
-/

namespace ApiBinding

/-- A model whose name is reserved. -/
structure Slot where
  name : String
  sourceName : Option String
  docstring : Option String := none
  /-- The body, once it is known. -/
  body : Option ModelBody := none
  deriving Repr, Inhabited

/-- The models under construction, in order of discovery. -/
structure Registry where
  scope : NameScope := { case := .upperCamel }
  slots : List Slot := []
  /-- The slots of components. -/
  components : Table String Nat := []
  /-- The slots of nodes that are not components, by serial number. -/
  inlined : Table Nat Nat := []
  deriving Repr, Inhabited

namespace Registry

/-- How many models there are. -/
def size (r : Registry) : Nat := r.slots.length

/-- The name in a slot. -/
def nameAt (r : Registry) (index : Nat) : String := ((r.slots[index]?).map Slot.name).getD ""

/-- The model name of a component, once it is reserved. -/
def componentModel? (r : Registry) (component : String) : Option String :=
  (Table.get? r.components component).map r.nameAt

/-- Add a slot. -/
def addSlot (r : Registry) (scope : NameScope) (slot : Slot) : Registry :=
  { r with scope := scope, slots := r.slots ++ [slot] }

/-- Reserve the model name of a component: the name, the registry with it, and a
finding if the name needed a number.  A name that is reserved already stays. -/
def reserveComponent (r : Registry) (naming : NamingConfig) (component : String) :
    String × Registry × List Diagnostic :=
  match r.componentModel? component with
  | some name => (name, r, [])
  | none =>
    let (name, scope, findings) :=
      allocateName naming r.scope component (Pointer.component component)
    let added := r.addSlot scope { name := name, sourceName := some component }
    (name, { added with components := Table.insert r.components component r.size }, findings)

/-- The slot of a node, its name, and whether it is new. -/
structure Reservation where
  index : Nat
  name : String
  new : Bool
  deriving DecidableEq, Repr

/-- Reserve a slot for a node that is no component; a node has one slot at
most. -/
def reserveInline (r : Registry) (naming : NamingConfig) (serial : Nat)
    (hint location : String) : Reservation × Registry × List Diagnostic :=
  match Table.get? r.inlined serial with
  | some index => (⟨index, r.nameAt index, false⟩, r, [])
  | none =>
    let (name, scope, findings) := allocateName naming r.scope hint location
    let added := r.addSlot scope { name := name, sourceName := none }
    (⟨r.size, name, true⟩, { added with inlined := Table.insert r.inlined serial r.size },
      findings)

/-- Fill the body of a slot. -/
def fill (r : Registry) (index : Nat) (docstring : Option String) (body : ModelBody) :
    Registry :=
  { r with
    slots := r.slots.modify index fun s => { s with docstring := docstring, body := some body } }

/-- Fill the body of a component's slot. -/
def fillComponent (r : Registry) (component : String) (docstring : Option String)
    (body : ModelBody) : Registry :=
  match Table.get? r.components component with
  | some index => r.fill index docstring body
  | none => r

end Registry

/-! ### Finished models -/

/-- The model of a slot; an empty slot is another name for any value. -/
def Slot.toModel (s : Slot) : Model :=
  { name := s.name, sourceName := s.sourceName, docstring := s.docstring,
    body := s.body.getD (.alias .any) }

namespace Model

/-- The membership that a variant of a tagged union makes, with the name of the
model that has it. -/
def membershipOf (union property : String) (v : UnionVariant) : Option (String × Membership) :=
  match v.type.nonOptional, v.tag with
  | .reference member, some tag => some (member, ⟨union, property, tag⟩)
  | _, _ => none

/-- The memberships that a model makes for others: those of the variants of a
tagged union. -/
def memberships (m : Model) : List (String × Membership) :=
  match m.body with
  | .union variants (some property) => variants.filterMap (membershipOf m.name property)
  | _ => []

/-- The model with its places in the unions of all models, without repetition. -/
def withMemberships (all : List (String × Membership)) (m : Model) : Model :=
  { m with variantOf := distinct ((all.filter fun e => e.1 == m.name).map Prod.snd) }

end Model

/-- The finished models. -/
def Registry.finish (r : Registry) : List Model :=
  let models := r.slots.map Slot.toModel
  let all := models.flatMap Model.memberships
  models.map (Model.withMemberships all)

end ApiBinding
