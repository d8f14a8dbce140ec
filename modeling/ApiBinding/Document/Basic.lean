import ApiBinding.Json.Basic

/-!
# API descriptions

The part of a description that a client is generated from: the operations of
every path, and the schemas of the named components.  A description is plain
data; nothing here is checked beyond its shape.

## Main definitions

* `Schema` — a schema as it is written, references included.
* `Parameter`, `Operation`, `PathItem`, `Components`, `Document` — the rest.
* `Schema.typeNames`, `Schema.isNullable`, `Schema.isNullType` — what the `type`
  and `nullable` keywords say.
* `PathItem.operations` — the declared operations in a fixed order of methods.
* `Schema.size` — the number of schemas in a schema.
-/

namespace ApiBinding

/-! ### Schemas -/

/-- The `type` keyword: one name or a list of names. -/
inductive TypeNames where
  | single (name : String)
  | multiple (names : List String)
  deriving DecidableEq, Repr, Inhabited

/-- The `additionalProperties` keyword: a permission or a schema. -/
inductive Additional (σ : Type) where
  | permitted (value : Bool)
  | schema (value : σ)
  deriving Repr

/-- The `discriminator` keyword: a property, and the schema pointers or component
names that its values stand for. -/
structure Discriminator where
  propertyName : String
  mapping : Table String String
  deriving DecidableEq, Repr, Inhabited

/-- A schema as it is written. -/
structure Schema where
  declaredType : Option TypeNames := none
  reference : Option String := none
  properties : List (String × Schema) := []
  required : List String := []
  items : Option Schema := none
  enumeration : Option (List Json) := none
  constant : Option Json := none
  allOf : List Schema := []
  oneOf : List Schema := []
  anyOf : List Schema := []
  discriminator : Option Discriminator := none
  additional : Option (Additional Schema) := none
  format : Option String := none
  nullable : Option Bool := none
  default : Option Json := none
  description : Option String := none
  title : Option String := none
  deriving Repr, Inhabited

namespace Schema

/-- The declared type names other than `null`. -/
def typeNames (s : Schema) : List String :=
  match s.declaredType with
  | none => []
  | some (.single name) => if name = "null" then [] else [name]
  | some (.multiple names) => names.filter (· ≠ "null")

/-- Whether `null` is admitted by the flag or by an entry of a type list. -/
def isNullable (s : Schema) : Bool :=
  s.nullable == some true ||
    match s.declaredType with
    | some (.multiple names) => names.contains "null"
    | _ => false

/-- Whether `null` is the only declared type. -/
def isNullType (s : Schema) : Bool :=
  match s.declaredType with
  | some (.single name) => name == "null"
  | some (.multiple names) => !names.isEmpty && names.all (· == "null")
  | none => false

mutual

/-- The number of schemas in a schema, itself included. -/
def size : Schema → Nat
  | ⟨_, _, properties, _, items, _, _, allOf, oneOf, anyOf, _, additional, _, _, _, _, _⟩ =>
    1 + sizeTable properties + sizeOption items + sizeList allOf + sizeList oneOf
      + sizeList anyOf + sizeAdditional additional

/-- The number of schemas in a table of schemas. -/
def sizeTable : List (String × Schema) → Nat
  | [] => 0
  | (_, s) :: rest => size s + sizeTable rest

/-- The number of schemas in a list of schemas. -/
def sizeList : List Schema → Nat
  | [] => 0
  | s :: rest => size s + sizeList rest

/-- The number of schemas in an optional schema. -/
def sizeOption : Option Schema → Nat
  | none => 0
  | some s => size s

/-- The number of schemas in an `additionalProperties` keyword. -/
def sizeAdditional : Option (Additional Schema) → Nat
  | some (.schema s) => size s
  | some (.permitted _) => 0
  | none => 0

end

theorem size_eq (s : Schema) :
    s.size = 1 + sizeTable s.properties + sizeOption s.items + sizeList s.allOf
      + sizeList s.oneOf + sizeList s.anyOf + sizeAdditional s.additional := by
  cases s
  rfl

theorem sizeList_append (xs ys : List Schema) :
    sizeList (xs ++ ys) = sizeList xs + sizeList ys := by
  induction xs with
  | nil => simp [sizeList]
  | cons s rest ih => simp [sizeList, ih, Nat.add_assoc]

theorem sizeList_reverse (xs : List Schema) : sizeList xs.reverse = sizeList xs := by
  induction xs with
  | nil => rfl
  | cons s rest ih => simp [sizeList, sizeList_append, ih, Nat.add_comm]

end Schema

/-! ### Operations -/

/-- The HTTP methods an operation can be declared for. -/
inductive HttpMethod where
  | get
  | put
  | post
  | delete
  | options
  | head
  | patch
  | trace
  deriving DecidableEq, Repr, Inhabited

namespace HttpMethod

/-- All methods, in the order in which the operations of a path are visited. -/
def all : List HttpMethod := [.get, .put, .post, .delete, .options, .head, .patch, .trace]

/-- The method as it is sent. -/
def name : HttpMethod → String
  | .get => "GET"
  | .put => "PUT"
  | .post => "POST"
  | .delete => "DELETE"
  | .options => "OPTIONS"
  | .head => "HEAD"
  | .patch => "PATCH"
  | .trace => "TRACE"

/-- The method as a key of a path item. -/
def key : HttpMethod → String
  | .get => "get"
  | .put => "put"
  | .post => "post"
  | .delete => "delete"
  | .options => "options"
  | .head => "head"
  | .patch => "patch"
  | .trace => "trace"

end HttpMethod

/-- A parameter of an operation. -/
structure Parameter where
  name : String
  /-- Where the parameter is sent: `path`, `query`, `header`, or another word. -/
  location : String
  required : Bool := false
  schema : Option Schema := none
  /-- A default of the parameter itself; the schema's applies otherwise. -/
  default : Option Json := none
  description : Option String := none
  deprecated : Bool := false
  deriving Repr, Inhabited

/-- The schema of one media type. -/
structure MediaType where
  schema : Option Schema := none
  deriving Repr, Inhabited

/-- The body of a request. -/
structure RequestBody where
  required : Bool := false
  description : Option String := none
  content : Table String MediaType := []
  deriving Repr, Inhabited

/-- A response. -/
structure Response where
  description : Option String := none
  content : Table String MediaType := []
  deriving Repr, Inhabited

/-- An operation of a path. -/
structure Operation where
  operationId : Option String := none
  summary : Option String := none
  description : Option String := none
  deprecated : Bool := false
  parameters : List Parameter := []
  requestBody : Option RequestBody := none
  responses : Table String Response := []
  deriving Repr, Inhabited

/-- The operations of one path, and the parameters that all of them share. -/
structure PathItem where
  get : Option Operation := none
  put : Option Operation := none
  post : Option Operation := none
  delete : Option Operation := none
  options : Option Operation := none
  head : Option Operation := none
  patch : Option Operation := none
  trace : Option Operation := none
  parameters : List Parameter := []
  deriving Repr, Inhabited

namespace PathItem

/-- The operation declared for a method. -/
def operation? (item : PathItem) : HttpMethod → Option Operation
  | .get => item.get
  | .put => item.put
  | .post => item.post
  | .delete => item.delete
  | .options => item.options
  | .head => item.head
  | .patch => item.patch
  | .trace => item.trace

/-- The declared operations, in the fixed order of the methods. -/
def operations (item : PathItem) : List (HttpMethod × Operation) :=
  HttpMethod.all.filterMap fun m => (item.operation? m).map fun op => (m, op)

end PathItem

/-! ### The document -/

/-- The reusable parts of a description; only schemas take part. -/
structure Components where
  schemas : Table String Schema := []
  deriving Repr, Inhabited

/-- An API description. -/
structure Document where
  paths : Table String PathItem := []
  components : Components := {}
  deriving Repr, Inhabited

namespace Document

/-- The schema of a component. -/
def schema? (d : Document) (component : String) : Option Schema :=
  Table.get? d.components.schemas component

/-- The names of the components, in document order. -/
def componentNames (d : Document) : List String := Table.keys d.components.schemas

/-- The number of schemas in the components. -/
def size (d : Document) : Nat := Schema.sizeTable d.components.schemas

end Document

end ApiBinding
