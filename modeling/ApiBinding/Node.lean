import ApiBinding.Client.TypeRef
import ApiBinding.Json.Basic

/-!
# Resolved schemas

A node is a schema whose references have been followed.  Nodes are shared: every
reference to a component leads to the one node of that component, and a node is
told from an equal one by its serial number.  A cycle is cut by a back reference,
which names a component whose node was still being made.

## Main definitions

* `Tagging`, `Shape`, `Node` — nodes.
* `Body` — a shape and whether `null` is admitted.
* `Node.same` — equality of nodes whatever their serial numbers.
* `Node.at?` — the node that steps of a pointer lead to.
-/

namespace ApiBinding

/-- How the variant of a union is picked. -/
inductive Tagging where
  /-- By trying. -/
  | untagged
  /-- By the value of a property; the tags stand in the order of the variants. -/
  | tagged (property : String) (tags : List String)
  deriving DecidableEq, Repr, Inhabited

/-- The shape of a node, over the nodes it is made of. -/
inductive Shape (ν : Type) where
  /-- No constraint. -/
  | any
  /-- Nothing but `null`. -/
  | null
  | scalar (kind : ScalarKind) (format : Option String)
  /-- An object: properties in order of declaration, the distinct names of required
  ones, and the schema of other keys if there may be any. -/
  | object (properties : List (String × ν)) (required : List String) (additional : Option ν)
  | array (items : ν)
  /-- One of some values, none of them `null`. -/
  | enumeration (values : List Json)
  | union (variants : List ν) (tagging : Tagging)
  /-- A component whose node was still being made. -/
  | backRef (component : String)
  deriving Repr

/-- A resolved schema. -/
structure Node where
  /-- Tells the node from every other node. -/
  serial : Nat
  shape : Shape Node
  nullable : Bool := false
  /-- The component whose body the node is. -/
  name : Option String := none
  description : Option String := none
  default : Option Json := none
  deriving Repr

/-- What a node says apart from its annotations. -/
structure Body where
  shape : Shape Node
  nullable : Bool := false
  deriving Repr

instance : Inhabited Node := ⟨⟨0, .any, false, none, none, none⟩⟩

namespace Shape

variable {ν : Type}

/-- Whether the shape is an object. -/
def isObject : Shape ν → Bool
  | .object _ _ _ => true
  | _ => false

/-- Whether the shape says nothing. -/
def isAny : Shape ν → Bool
  | .any => true
  | _ => false

/-- Whether the shape admits nothing but `null`. -/
def isNull : Shape ν → Bool
  | .null => true
  | _ => false

/-- The component of a back reference. -/
def backRef? : Shape ν → Option String
  | .backRef component => some component
  | _ => none

/-- The properties of an object; none for other shapes. -/
def properties : Shape ν → List (String × ν)
  | .object properties _ _ => properties
  | _ => []

/-- The value of an enumeration of one. -/
def singleLiteral? : Shape ν → Option Json
  | .enumeration [value] => some value
  | _ => none

end Shape

namespace Node

/-- The body of a node. -/
def body (n : Node) : Body := ⟨n.shape, n.nullable⟩

/-! ### Equality -/

/-- Whether two lists of distinct names have the same elements. -/
def sameNames (xs ys : List String) : Bool :=
  xs.length == ys.length && xs.all fun x => ys.contains x

mutual

/-- Equality of nodes whatever their serial numbers; the order of properties and
of required names does not count. -/
def same : Node → Node → Bool
  | ⟨_, s, nullable, name, description, default⟩,
    ⟨_, s', nullable', name', description', default'⟩ =>
    sameShape s s' && nullable == nullable' && name == name' && description == description' &&
      Json.sameOption default default'

/-- Equality of shapes. -/
def sameShape : Shape Node → Shape Node → Bool
  | .any, .any => true
  | .null, .null => true
  | .scalar kind format, .scalar kind' format' => kind == kind' && format == format'
  | .object properties required additional, .object properties' required' additional' =>
    properties.length == properties'.length && sameProperties properties properties' &&
      sameNames required required' && sameAdditional additional additional'
  | .array items, .array items' => same items items'
  | .enumeration values, .enumeration values' => Json.sameItems values values'
  | .union variants tagging, .union variants' tagging' =>
    sameVariants variants variants' && tagging == tagging'
  | .backRef component, .backRef component' => component == component'
  | _, _ => false

/-- Every property of the first table is a property of the second. -/
def sameProperties : List (String × Node) → List (String × Node) → Bool
  | [], _ => true
  | (k, n) :: rest, others =>
    (match Table.get? others k with
      | some m => same n m
      | none => false) && sameProperties rest others

/-- Equality of lists of nodes. -/
def sameVariants : List Node → List Node → Bool
  | [], [] => true
  | n :: ns, m :: ms => same n m && sameVariants ns ms
  | _, _ => false

/-- Equality of optional nodes. -/
def sameAdditional : Option Node → Option Node → Bool
  | none, none => true
  | some n, some m => same n m
  | _, _ => false

end

/-! ### Steps -/

/-- The node that steps of a pointer lead to.  Steps lead through properties,
items and additional properties only. -/
def at? : Node → List String → Option Node
  | n, [] => some n
  | n, [step] =>
    match n.shape with
    | .object _ _ additional => if step = "additionalProperties" then additional else none
    | .array items => if step = "items" then some items else none
    | _ => none
  | n, step :: next :: rest =>
    match n.shape with
    | .object properties _ additional =>
      if step = "properties" then (Table.get? properties next).bind fun m => at? m rest
      else if step = "additionalProperties" then additional.bind fun m => at? m (next :: rest)
      else none
    | .array items => if step = "items" then at? items (next :: rest) else none
    | _ => none

end Node

end ApiBinding
