import ApiBinding.Client.TypeRef
import ApiBinding.Json.Basic

/-!
# Models of the client

A model is a named type: a record, an enumeration, a union, or another name for a
type.  Models refer to each other by name.

## Main definitions

* `Field`, `EnumMember`, `UnionVariant` — the parts of a model.
* `ModelBody` — the four kinds of model.
* `Membership`, `Model` — a model, with the tagged unions it belongs to.
-/

namespace ApiBinding

/-- A field of a record. -/
structure Field where
  /-- The identifier of the field. -/
  name : String
  /-- The property name in the data. -/
  wireName : String
  type : TypeRef
  required : Bool
  docstring : Option String := none
  default : Option Json := none
  deriving Repr, Inhabited

/-- A member of an enumeration. -/
structure EnumMember where
  name : String
  value : Json
  deriving Repr, Inhabited

/-- A variant of a union. -/
structure UnionVariant where
  type : TypeRef
  /-- The value of the discriminator that selects the variant. -/
  tag : Option String := none
  deriving DecidableEq, Repr, Inhabited

/-- What a model is. -/
inductive ModelBody where
  /-- A record; `additional` is the type of keys beyond the fields. -/
  | object (fields : List Field) (additional : Option TypeRef)
  | enumeration (members : List EnumMember)
  /-- A union; with a discriminator, every variant has a tag. -/
  | union (variants : List UnionVariant) (discriminator : Option String)
  | alias (target : TypeRef)
  deriving Repr, Inhabited

/-- A place of a model in a tagged union. -/
structure Membership where
  union : String
  property : String
  tag : String
  deriving DecidableEq, Repr, Inhabited

/-- A named type of the client. -/
structure Model where
  name : String
  /-- The component that the model stands for; none for a model made of a schema
  inside another one. -/
  sourceName : Option String
  docstring : Option String
  body : ModelBody
  /-- The tagged unions the model belongs to, in order of discovery. -/
  variantOf : List Membership := []
  deriving Repr, Inhabited

namespace Model

/-- The fields of a record; other models have none. -/
def fields (m : Model) : List Field :=
  match m.body with
  | .object fields _ => fields
  | _ => []

/-- The first field of a name. -/
def field? (m : Model) (name : String) : Option Field := m.fields.find? fun f => f.name == name

end Model

end ApiBinding
