import ApiBinding.Client.Interface
import ApiBinding.Json.Record

/-!
# Reading client interfaces

What the writer of interfaces produces can be read back.  As in a description,
unknown keys are skipped and records may be arrays of their fields.  A type may
name its kind before or after its content, or be an array of the two; a model
body in array form begins with its kind.  A content that stands before its kind is
set aside until the kind is known, and so is the whole of a model body.

## Main definitions

* `TypeRef.Reading`, `TypeRef.readWhen?`, `TypeRef.ofTree?` — types, read from the
  leaves up.
* `Model.ofTree?`, `Endpoint.ofTree?` — models and endpoints.
* `Interface.ofTree?` — an interface.
-/

namespace ApiBinding

/-! ### Types -/

namespace TypeRef

/-- The kinds of types. -/
inductive Kind where
  | any
  | scalar
  | reference
  | list
  | dict
  | optional
  | union
  deriving DecidableEq, Repr

/-- All kinds with their words. -/
def Kind.words : List (String × Kind) :=
  [("any", .any), ("scalar", .scalar), ("reference", .reference), ("list", .list),
   ("dict", .dict), ("optional", .optional), ("union", .union)]

/-- A part of a tree together with what it says in each role it can play. -/
structure Reading where
  tree : Tree
  /-- The part as a type. -/
  type : Tree.Timing → Option TypeRef
  /-- The part as a list of types. -/
  types : Tree.Timing → Option (List TypeRef)

/-- The type of a kind with the given content, if one was written. -/
def ofParts? (timing : Tree.Timing) (kind : Kind) (content : Option Reading) :
    Option TypeRef :=
  match kind, content with
  | .any, none => some .any
  | .any, some x => match x.tree with
    | .null => some .any
    | _ => none
  | .scalar, some x => (x.tree.wordWhen? timing ScalarKind.words).map .scalar
  | .reference, some x => x.tree.string?.map .reference
  | .list, some x => (x.type timing).map .list
  | .dict, some x => (x.type timing).map .dict
  | .optional, some x => (x.type timing).map .optional
  | .union, some x => (x.types timing).map .union
  | _, none => none

/-- When the content of a type is read: it is set aside if it stands before the
kind. -/
def contentTiming (timing : Tree.Timing) (r : Record Reading) : Tree.Timing :=
  match r.fields with
  | (first, _) :: _ => if first = "of" then .setAside else timing
  | [] => timing

/-- The type that the entries of an object describe. -/
def ofEntries? (parts : List (String × Reading)) (timing : Tree.Timing) : Option TypeRef := do
  let r ← Record.ofEntries? ["kind", "of"] parts
  let kind ← r.field? "kind" fun x => x.tree.wordWhen? timing Kind.words
  ofParts? (contentTiming timing r) kind (r.get? "of")

/-- The type that the items of an array describe: its kind and its content. -/
def ofItems? (parts : List Reading) (timing : Tree.Timing) : Option TypeRef :=
  match parts with
  | [kind, content] => do
    ofParts? timing (← kind.tree.headWhen? timing Kind.words) (some content)
  | _ => none

namespace Reading

mutual

/-- The readings of a tree. -/
def of : Tree → Reading
  | .object entries => ⟨.object entries, ofEntries? (ofEntries entries), fun _ => none⟩
  | .array items =>
    let parts := ofItems items
    ⟨.array items, ofItems? parts, fun timing => parts.mapM fun x => x.type timing⟩
  | t => ⟨t, fun _ => none, fun _ => none⟩

/-- The readings of the items. -/
def ofItems : List Tree → List Reading
  | [] => []
  | t :: rest => of t :: ofItems rest

/-- The readings of the entries. -/
def ofEntries : List (String × Tree) → List (String × Reading)
  | [] => []
  | (k, t) :: rest => (k, of t) :: ofEntries rest

end

end Reading

/-- A type in a part that is read at the given time. -/
def readWhen? (timing : Tree.Timing) (t : Tree) : Option TypeRef := (Reading.of t).type timing

/-- A type. -/
def ofTree? (t : Tree) : Option TypeRef := readWhen? .atOnce t

end TypeRef

/-! ### Models -/

/-- A type inside a model body. -/
def TypeRef.setAside? (t : Tree) : Option TypeRef := readWhen? .setAside t

/-- A field of a record. -/
def Field.ofTree? (t : Tree) : Option Field := do
  let r ← Record.ofTree? ["name", "wire_name", "ty", "required", "docstring", "default"] t
  let name ← r.field? "name" Tree.string?
  let wireName ← r.field? "wire_name" Tree.string?
  let type ← r.field? "ty" TypeRef.setAside?
  let required ← r.field? "required" Tree.bool?
  let docstring ← r.fieldOr? "docstring" none (Tree.nullable? Tree.string?)
  let default ← r.fieldOr? "default" none (Tree.nullable? Tree.toJson?)
  return { name, wireName, type, required, docstring, default }

/-- A member of an enumeration. -/
def EnumMember.ofTree? (t : Tree) : Option EnumMember := do
  let r ← Record.ofTree? ["name", "value"] t
  let name ← r.field? "name" Tree.string?
  let value ← r.field? "value" Tree.toJson?
  return { name, value }

/-- A variant of a union. -/
def UnionVariant.ofTree? (t : Tree) : Option UnionVariant := do
  let r ← Record.ofTree? ["ty", "tag"] t
  let type ← r.field? "ty" TypeRef.setAside?
  let tag ← r.fieldOr? "tag" none (Tree.nullable? Tree.string?)
  return { type, tag }

namespace ModelBody

/-- The kinds of models. -/
inductive Kind where
  | object
  | enumeration
  | union
  | alias
  deriving DecidableEq, Repr

/-- All kinds with their words. -/
def Kind.words : List (String × Kind) :=
  [("object", .object), ("enum", .enumeration), ("union", .union), ("alias", .alias)]

/-- The fields of a model body of a kind. -/
def fieldNames : Kind → List String
  | .object => ["fields", "additional_properties"]
  | .enumeration => ["members"]
  | .union => ["variants", "discriminator"]
  | .alias => ["target"]

/-- The model body of a kind with the given fields. -/
def ofRecord? (kind : Kind) (r : Record Tree) : Option ModelBody :=
  match kind with
  | .object => do
    let fields ← r.field? "fields" (Tree.list? Field.ofTree?)
    let additional ← r.fieldOr? "additional_properties" none (Tree.nullable? TypeRef.setAside?)
    return .object fields additional
  | .enumeration => do return .enumeration (← r.field? "members" (Tree.list? EnumMember.ofTree?))
  | .union => do
    let variants ← r.field? "variants" (Tree.list? UnionVariant.ofTree?)
    let discriminator ← r.fieldOr? "discriminator" none (Tree.nullable? Tree.string?)
    return .union variants discriminator
  | .alias => do return .alias (← r.field? "target" TypeRef.setAside?)

/-- A model body.  Its kind says which fields there are, so the whole body is
set aside before the fields are read, and no part of it may be invalid. -/
def ofTree? (t : Tree) : Option ModelBody :=
  if ¬ t.sound then none
  else match t with
    | .object entries => do
      let word ← (Table.get? entries "kind").bind Tree.string?
      let kind ← Table.get? Kind.words word
      ofRecord? kind (← Record.ofEntries? (fieldNames kind) entries)
    | .array (.string word :: items) => do
      let kind ← Table.get? Kind.words word
      ofRecord? kind (← Record.ofItems? (fieldNames kind) items)
    | _ => none

end ModelBody

/-- A place in a tagged union. -/
def Membership.ofTree? (t : Tree) : Option Membership := do
  let r ← Record.ofTree? ["union", "property", "tag"] t
  let union ← r.field? "union" Tree.string?
  let property ← r.field? "property" Tree.string?
  let tag ← r.field? "tag" Tree.string?
  return { union, property, tag }

/-- A model. -/
def Model.ofTree? (t : Tree) : Option Model := do
  let r ← Record.ofTree? ["name", "source_name", "docstring", "kind", "variant_of"] t
  let name ← r.field? "name" Tree.string?
  let sourceName ← r.lenient? "source_name" (Tree.nullable? Tree.string?)
  let docstring ← r.lenient? "docstring" (Tree.nullable? Tree.string?)
  let body ← r.field? "kind" ModelBody.ofTree?
  let variantOf ← r.fieldOr? "variant_of" [] (Tree.list? Membership.ofTree?)
  return { name, sourceName, docstring, body, variantOf }

/-! ### Endpoints -/

/-- All methods with the words they are sent as. -/
def HttpMethod.words : List (String × HttpMethod) := HttpMethod.all.map fun m => (m.name, m)

/-- A parameter. -/
def EndpointParameter.ofTree? (t : Tree) : Option EndpointParameter := do
  let r ← Record.ofTree?
    ["name", "wire_name", "location", "type", "required", "default_value", "description",
      "deprecated"] t
  let name ← r.field? "name" Tree.string?
  let wireName ← r.field? "wire_name" Tree.string?
  let place ← r.field? "location" (Tree.word? ParameterPlace.words)
  let type ← r.field? "type" TypeRef.ofTree?
  let required ← r.field? "required" Tree.bool?
  let default ← r.fieldOr? "default_value" none (Tree.nullable? Tree.toJson?)
  let description ← r.fieldOr? "description" none (Tree.nullable? Tree.string?)
  let deprecated ← r.fieldOr? "deprecated" false Tree.bool?
  return { name, wireName, place, type, required, default, description, deprecated }

/-- The entries of a table of responses, keys in any form. -/
def responseEntries? : List (String × Tree) → Option (List (StatusKey × Option TypeRef))
  | [] => some []
  | (key, t) :: rest => do
    let status ← StatusKey.ofText? key
    let body ← Tree.nullable? TypeRef.ofTree? t
    let more ← responseEntries? rest
    return (status, body) :: more

/-- A table of responses; of keys that mean the same status the last one wins and
takes the place of the first. -/
def responsesOfTree? : Tree → Option (Table StatusKey (Option TypeRef))
  | .object entries => (responseEntries? entries).map Table.ofEntries
  | _ => none

/-- An endpoint. -/
def Endpoint.ofTree? (t : Tree) : Option Endpoint := do
  let r ← Record.ofTree?
    ["name", "operation_id", "http_method", "path_template", "parameters", "request_body_type",
      "request_body_required", "response_map", "deprecated", "summary", "description"] t
  let name ← r.field? "name" Tree.string?
  let operationId ← r.fieldOr? "operation_id" none (Tree.nullable? Tree.string?)
  let method ← r.field? "http_method" (Tree.word? HttpMethod.words)
  let path ← r.field? "path_template" Tree.string?
  let parameters ← r.field? "parameters" (Tree.list? EndpointParameter.ofTree?)
  let requestBody ← r.fieldOr? "request_body_type" none (Tree.nullable? TypeRef.ofTree?)
  let requestBodyRequired ← r.fieldOr? "request_body_required" false Tree.bool?
  let responses ← r.field? "response_map" responsesOfTree?
  let deprecated ← r.fieldOr? "deprecated" false Tree.bool?
  let summary ← r.fieldOr? "summary" none (Tree.nullable? Tree.string?)
  let description ← r.fieldOr? "description" none (Tree.nullable? Tree.string?)
  return { name, operationId, method, path, parameters, requestBody, requestBodyRequired,
           responses, deprecated, summary, description }

/-! ### The interface -/

/-- A client interface. -/
def Interface.ofTree? (t : Tree) : Option Interface := do
  let r ← Record.ofTree? ["models", "operations"] t
  let models ← r.field? "models" (Tree.list? Model.ofTree?)
  let endpoints ← r.field? "operations" (Tree.list? Endpoint.ofTree?)
  return { models, endpoints }

end ApiBinding
