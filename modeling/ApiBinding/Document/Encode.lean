import ApiBinding.Document.Basic

/-!
# Writing API descriptions

A description is written with the fields of every part in declaration order.  A
schema, a parameter, a path item and a discriminator leave out the fields that
say nothing; an operation, a body, a response and a media type write them all.

## Main definitions

* `Json.record` — an object from optional fields.
* `Schema.toJson`, `Document.toJson` — the value of a schema and of a description.
-/

namespace ApiBinding

namespace Json

/-- An object with those fields that have a value. -/
def record (fields : List (String × Option Json)) : Json :=
  .object (fields.filterMap fun f => f.2.map fun v => (f.1, v))

/-- A field that is left out when the list is empty. -/
def ofNonempty {α : Type} (write : α → Json) (xs : List α) : Option Json :=
  if xs.isEmpty then none else some (.array (xs.map write))

end Json

/-! ### Schemas -/

/-- One type name or a list of type names. -/
def TypeNames.toJson : TypeNames → Json
  | .single name => .string name
  | .multiple names => .array (names.map .string)

/-- A discriminator, without an empty mapping. -/
def Discriminator.toJson (d : Discriminator) : Json :=
  .record
    [("propertyName", some (.string d.propertyName)),
     ("mapping", if d.mapping.isEmpty then none
        else some (.object (Table.mapValues .string d.mapping)))]

namespace Schema

mutual

/-- The value of a schema. -/
def toJson : Schema → Json
  | ⟨declaredType, reference, properties, required, items, enumeration, constant, allOf, oneOf,
      anyOf, discriminator, additional, format, nullable, default, description, title⟩ =>
    .record
      [("type", declaredType.map TypeNames.toJson),
       ("$ref", reference.map .string),
       ("properties", nonemptyTable properties),
       ("required", Json.ofNonempty .string required),
       ("items", optional items),
       ("enum", enumeration.map .array),
       ("const", constant),
       ("allOf", nonemptyList allOf),
       ("oneOf", nonemptyList oneOf),
       ("anyOf", nonemptyList anyOf),
       ("discriminator", discriminator.map Discriminator.toJson),
       ("additionalProperties", additionalJson additional),
       ("format", format.map .string),
       ("nullable", nullable.map .bool),
       ("default", default),
       ("description", description.map .string),
       ("title", title.map .string)]

/-- The values of a list of schemas. -/
def listJson : List Schema → List Json
  | [] => []
  | s :: rest => toJson s :: listJson rest

/-- The values of a table of schemas. -/
def tableJson : List (String × Schema) → List (String × Json)
  | [] => []
  | (k, s) :: rest => (k, toJson s) :: tableJson rest

/-- A field that is left out when there are no schemas. -/
def nonemptyList : List Schema → Option Json
  | [] => none
  | s :: rest => some (.array (toJson s :: listJson rest))

/-- A field that is left out when the table is empty. -/
def nonemptyTable : List (String × Schema) → Option Json
  | [] => none
  | (k, s) :: rest => some (.object ((k, toJson s) :: tableJson rest))

/-- The value of an optional schema. -/
def optional : Option Schema → Option Json
  | none => none
  | some s => some (toJson s)

/-- The value of an `additionalProperties` keyword. -/
def additionalJson : Option (Additional Schema) → Option Json
  | none => none
  | some (.permitted b) => some (.bool b)
  | some (.schema s) => some (toJson s)

end

end Schema

/-! ### Operations -/

/-- A parameter. -/
def Parameter.toJson (p : Parameter) : Json :=
  .record
    [("name", some (.string p.name)),
     ("in", some (.string p.location)),
     ("required", some (.bool p.required)),
     ("schema", p.schema.map Schema.toJson),
     ("default", p.default),
     ("description", p.description.map .string),
     ("deprecated", some (.bool p.deprecated))]

/-- A media type. -/
def MediaType.toJson (m : MediaType) : Json :=
  .object [("schema", (m.schema.map Schema.toJson).getD .null)]

/-- A request body. -/
def RequestBody.toJson (b : RequestBody) : Json :=
  .object
    [("required", .bool b.required),
     ("description", .ofString? b.description),
     ("content", .object (Table.mapValues MediaType.toJson b.content))]

/-- A response. -/
def Response.toJson (r : Response) : Json :=
  .object
    [("description", .ofString? r.description),
     ("content", .object (Table.mapValues MediaType.toJson r.content))]

/-- An operation. -/
def Operation.toJson (op : Operation) : Json :=
  .object
    [("operationId", .ofString? op.operationId),
     ("summary", .ofString? op.summary),
     ("description", .ofString? op.description),
     ("deprecated", .bool op.deprecated),
     ("parameters", .array (op.parameters.map Parameter.toJson)),
     ("requestBody", (op.requestBody.map RequestBody.toJson).getD .null),
     ("responses", .object (Table.mapValues Response.toJson op.responses))]

/-- A path item: the declared operations, then the shared parameters if any. -/
def PathItem.toJson (item : PathItem) : Json :=
  .record
    ((HttpMethod.all.map fun m => (m.key, (item.operation? m).map Operation.toJson)) ++
      [("parameters", Json.ofNonempty Parameter.toJson item.parameters)])

/-! ### The document -/

/-- The components. -/
def Components.toJson (c : Components) : Json :=
  .object [("schemas", .object (Schema.tableJson c.schemas))]

/-- A description. -/
def Document.toJson (d : Document) : Json :=
  .object
    [("paths", .object (Table.mapValues PathItem.toJson d.paths)),
     ("components", d.components.toJson)]

end ApiBinding
