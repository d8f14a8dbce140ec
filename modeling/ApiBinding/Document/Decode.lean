import ApiBinding.Document.Basic
import ApiBinding.Json.Record
import ApiBinding.Json.Reader

/-!
# Reading API descriptions

Descriptions are read from written JSON.  Keys that nobody declared are skipped,
a missing field takes its default, `null` stands for a missing optional field
and for nothing else, and no value is converted from one type to another.

A schema is read from the leaves up: every part of the tree is read as a schema,
as a list of schemas and as a table of schemas, and the schema around it picks
the reading that its field calls for.

## Main definitions

* `Schema.Reading`, `Schema.Reading.of` — what a part says in each of its roles.
* `Schema.ofTree?` — a schema.
* `Document.ofTree?`, `Document.read?`, `Document.ofJson?` — a description, from
  a tree, from text, and from a value.
-/

namespace ApiBinding

/-! ### Schemas -/

namespace TypeNames

/-- One type name or a list of type names. -/
def ofTree? : Tree → Option TypeNames
  | .string name => some (.single name)
  | .array items => (items.mapM Tree.string?).map .multiple
  | _ => none

end TypeNames

namespace Discriminator

/-- The fields of a discriminator. -/
def fieldNames : List String := ["propertyName", "mapping"]

/-- A discriminator; the property is mandatory. -/
def ofTree? (t : Tree) : Option Discriminator := do
  let r ← Record.ofTree? fieldNames t
  let propertyName ← r.field? "propertyName" Tree.string?
  let mapping ← r.fieldOr? "mapping" [] (Tree.table? Tree.string?)
  return { propertyName, mapping }

end Discriminator

namespace Schema

/-- The fields of a schema. -/
def fieldNames : List String :=
  ["type", "$ref", "properties", "required", "items", "enum", "const", "allOf", "oneOf",
    "anyOf", "discriminator", "additionalProperties", "format", "nullable", "default",
    "description", "title"]

/-- A part of a tree together with what it says in each role it can play. -/
structure Reading where
  tree : Tree
  /-- The part as a schema. -/
  schema : Option Schema
  /-- The part as a list of schemas. -/
  schemas : Option (List Schema)
  /-- The part as a table of schemas. -/
  table : Option (Table String Schema)

namespace Reading

/-- A reading that may also be `null`. -/
def nullable? {α : Type} (read : Reading → Option α) (x : Reading) : Option (Option α) :=
  match x.tree with
  | .null => some none
  | _ => (read x).map some

/-- A permission or a schema.  Which of the two it is shows only once the part has
been read as a whole, so no part of it may be invalid. -/
def additional? (x : Reading) : Option (Additional Schema) :=
  if x.tree.sound then
    match x.tree with
    | .bool b => some (.permitted b)
    | _ => x.schema.map .schema
  else none

end Reading

/-- The schema with the given fields. -/
def ofRecord? (r : Record Reading) : Option Schema := do
  let text (x : Reading) := x.tree.string?
  let value (x : Reading) := x.tree.toJson?
  let declaredType ←
    r.fieldOr? "type" none (Reading.nullable? fun x => TypeNames.ofTree? x.tree)
  let reference ← r.fieldOr? "$ref" none (Reading.nullable? text)
  let properties ← r.fieldOr? "properties" [] Reading.table
  let required ← r.fieldOr? "required" [] fun x => x.tree.list? Tree.string?
  let items ← r.fieldOr? "items" none (Reading.nullable? Reading.schema)
  let enumeration ←
    r.fieldOr? "enum" none (Reading.nullable? fun x => x.tree.list? Tree.toJson?)
  let constant ← r.fieldOr? "const" none (Reading.nullable? value)
  let allOf ← r.fieldOr? "allOf" [] Reading.schemas
  let oneOf ← r.fieldOr? "oneOf" [] Reading.schemas
  let anyOf ← r.fieldOr? "anyOf" [] Reading.schemas
  let discriminator ←
    r.fieldOr? "discriminator" none (Reading.nullable? fun x => Discriminator.ofTree? x.tree)
  let additional ←
    r.fieldOr? "additionalProperties" none (Reading.nullable? Reading.additional?)
  let format ← r.fieldOr? "format" none (Reading.nullable? text)
  let nullable ← r.fieldOr? "nullable" none (Reading.nullable? fun x => x.tree.bool?)
  let default ← r.fieldOr? "default" none (Reading.nullable? value)
  let description ← r.fieldOr? "description" none (Reading.nullable? text)
  let title ← r.fieldOr? "title" none (Reading.nullable? text)
  return { declaredType, reference, properties, required, items, enumeration, constant, allOf,
           oneOf, anyOf, discriminator, additional, format, nullable, default, description,
           title }

namespace Reading

mutual

/-- The readings of a tree. -/
def of : Tree → Reading
  | .object entries =>
    let parts := ofEntries entries
    { tree := .object entries
      schema := (Record.ofEntries? fieldNames parts).bind ofRecord?
      schemas := none
      table := (Table.mapM? Reading.schema parts).map Table.ofEntries }
  | .array items =>
    let parts := ofItems items
    { tree := .array items
      schema := (Record.ofItems? fieldNames parts).bind ofRecord?
      schemas := parts.mapM Reading.schema
      table := none }
  | t => ⟨t, none, none, none⟩

/-- The readings of the items. -/
def ofItems : List Tree → List Reading
  | [] => []
  | t :: rest => of t :: ofItems rest

/-- The readings of the entries. -/
def ofEntries : List (String × Tree) → List (String × Reading)
  | [] => []
  | (k, t) :: rest => (k, of t) :: ofEntries rest

end

end Reading

/-- A schema. -/
def ofTree? (t : Tree) : Option Schema := (Reading.of t).schema

end Schema

/-! ### Operations -/

namespace Parameter

/-- The fields of a parameter. -/
def fieldNames : List String :=
  ["name", "in", "required", "schema", "default", "description", "deprecated"]

/-- A parameter; its name and its location are mandatory. -/
def ofTree? (t : Tree) : Option Parameter := do
  let r ← Record.ofTree? fieldNames t
  let name ← r.field? "name" Tree.string?
  let location ← r.field? "in" Tree.string?
  let required ← r.fieldOr? "required" false Tree.bool?
  let schema ← r.fieldOr? "schema" none (Tree.nullable? Schema.ofTree?)
  let default ← r.fieldOr? "default" none (Tree.nullable? Tree.toJson?)
  let description ← r.fieldOr? "description" none (Tree.nullable? Tree.string?)
  let deprecated ← r.fieldOr? "deprecated" false Tree.bool?
  return { name, location, required, schema, default, description, deprecated }

end Parameter

/-- The schema of a media type. -/
def MediaType.ofTree? (t : Tree) : Option MediaType := do
  let r ← Record.ofTree? ["schema"] t
  let schema ← r.fieldOr? "schema" none (Tree.nullable? Schema.ofTree?)
  return { schema }

/-- The body of a request. -/
def RequestBody.ofTree? (t : Tree) : Option RequestBody := do
  let r ← Record.ofTree? ["required", "description", "content"] t
  let required ← r.fieldOr? "required" false Tree.bool?
  let description ← r.fieldOr? "description" none (Tree.nullable? Tree.string?)
  let content ← r.fieldOr? "content" [] (Tree.table? MediaType.ofTree?)
  return { required, description, content }

/-- A response. -/
def Response.ofTree? (t : Tree) : Option Response := do
  let r ← Record.ofTree? ["description", "content"] t
  let description ← r.fieldOr? "description" none (Tree.nullable? Tree.string?)
  let content ← r.fieldOr? "content" [] (Tree.table? MediaType.ofTree?)
  return { description, content }

namespace Operation

/-- The fields of an operation. -/
def fieldNames : List String :=
  ["operationId", "summary", "description", "deprecated", "parameters", "requestBody",
    "responses"]

/-- An operation. -/
def ofTree? (t : Tree) : Option Operation := do
  let r ← Record.ofTree? fieldNames t
  let operationId ← r.fieldOr? "operationId" none (Tree.nullable? Tree.string?)
  let summary ← r.fieldOr? "summary" none (Tree.nullable? Tree.string?)
  let description ← r.fieldOr? "description" none (Tree.nullable? Tree.string?)
  let deprecated ← r.fieldOr? "deprecated" false Tree.bool?
  let parameters ← r.fieldOr? "parameters" [] (Tree.list? Parameter.ofTree?)
  let requestBody ← r.fieldOr? "requestBody" none (Tree.nullable? RequestBody.ofTree?)
  let responses ← r.fieldOr? "responses" [] (Tree.table? Response.ofTree?)
  return { operationId, summary, description, deprecated, parameters, requestBody, responses }

end Operation

namespace PathItem

/-- The fields of a path item: one for each method, then the shared parameters. -/
def fieldNames : List String := HttpMethod.all.map HttpMethod.key ++ ["parameters"]

/-- The operations of a path. -/
def ofTree? (t : Tree) : Option PathItem := do
  let r ← Record.ofTree? fieldNames t
  let operation (m : HttpMethod) : Option (Option Operation) :=
    r.fieldOr? m.key none (Tree.nullable? Operation.ofTree?)
  let get ← operation .get
  let put ← operation .put
  let post ← operation .post
  let delete ← operation .delete
  let options ← operation .options
  let head ← operation .head
  let patch ← operation .patch
  let trace ← operation .trace
  let parameters ← r.fieldOr? "parameters" [] (Tree.list? Parameter.ofTree?)
  return { get, put, post, delete, options, head, patch, trace, parameters }

end PathItem

/-! ### The document -/

/-- The components. -/
def Components.ofTree? (t : Tree) : Option Components := do
  let r ← Record.ofTree? ["schemas"] t
  let schemas ← r.fieldOr? "schemas" [] (Tree.table? Schema.ofTree?)
  return { schemas }

namespace Document

/-- A description. -/
def ofTree? (t : Tree) : Option Document := do
  let r ← Record.ofTree? ["paths", "components"] t
  let paths ← r.fieldOr? "paths" [] (Tree.table? PathItem.ofTree?)
  let components ← r.fieldOr? "components" {} Components.ofTree?
  return { paths, components }

/-- A description written as JSON text. -/
def read? (text : String) : Option Document := (Tree.read? text).bind ofTree?

/-- A description given as a value. -/
def ofJson? (value : Json) : Option Document := ofTree? (Tree.ofJson value)

end Document

end ApiBinding
