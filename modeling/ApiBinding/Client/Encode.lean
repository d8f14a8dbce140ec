import ApiBinding.Client.Interface
import ApiBinding.Diagnostic
import ApiBinding.Document.Encode

/-!
# Writing client interfaces

The value of an interface shows every part with its fields in a fixed order.  A
type is an object with its kind under `kind` and, unless it is `any`, its
content under `of`.  Optional parts that are missing are left out; only the
source name and the docstring of a model are then written as `null`.  In the
table of responses `null` stands for a declared empty body.

## Main definitions

* `TypeRef.toJson`, `Model.toJson`, `Endpoint.toJson` — the parts.
* `Interface.toJson` — the whole interface.
* `Diagnostic.toJson` — a finding.
-/

namespace ApiBinding

/-! ### Types -/

namespace TypeRef

/-- A type of the given kind with its content. -/
def tagged (kind : String) (content : Json) : Json :=
  .object [("kind", .string kind), ("of", content)]

mutual

/-- The value of a type. -/
def toJson : TypeRef → Json
  | .any => .object [("kind", .string "any")]
  | .scalar kind => tagged "scalar" (.string kind.name)
  | .reference name => tagged "reference" (.string name)
  | .list item => tagged "list" (toJson item)
  | .dict value => tagged "dict" (toJson value)
  | .optional inner => tagged "optional" (toJson inner)
  | .union members => tagged "union" (.array (listJson members))

/-- The values of a list of types. -/
def listJson : List TypeRef → List Json
  | [] => []
  | t :: rest => toJson t :: listJson rest

end

end TypeRef

/-! ### Models -/

/-- A field of a record. -/
def Field.toJson (f : Field) : Json :=
  .record
    [("name", some (.string f.name)),
     ("wire_name", some (.string f.wireName)),
     ("ty", some f.type.toJson),
     ("required", some (.bool f.required)),
     ("docstring", f.docstring.map .string),
     ("default", f.default)]

/-- A member of an enumeration. -/
def EnumMember.toJson (m : EnumMember) : Json :=
  .object [("name", .string m.name), ("value", m.value)]

/-- A variant of a union. -/
def UnionVariant.toJson (v : UnionVariant) : Json :=
  .record [("ty", some v.type.toJson), ("tag", v.tag.map .string)]

/-- What a model is, its kind under `kind`. -/
def ModelBody.toJson : ModelBody → Json
  | .object fields additional =>
    .record
      [("kind", some (.string "object")),
       ("fields", some (.array (fields.map Field.toJson))),
       ("additional_properties", additional.map TypeRef.toJson)]
  | .enumeration members =>
    .record
      [("kind", some (.string "enum")),
       ("members", some (.array (members.map EnumMember.toJson)))]
  | .union variants discriminator =>
    .record
      [("kind", some (.string "union")),
       ("variants", some (.array (variants.map UnionVariant.toJson))),
       ("discriminator", discriminator.map .string)]
  | .alias target =>
    .record [("kind", some (.string "alias")), ("target", some target.toJson)]

/-- A place in a tagged union. -/
def Membership.toJson (m : Membership) : Json :=
  .object
    [("union", .string m.union), ("property", .string m.property), ("tag", .string m.tag)]

/-- A model. -/
def Model.toJson (m : Model) : Json :=
  .record
    [("name", some (.string m.name)),
     ("source_name", some (.ofString? m.sourceName)),
     ("docstring", some (.ofString? m.docstring)),
     ("kind", some m.body.toJson),
     ("variant_of", Json.ofNonempty Membership.toJson m.variantOf)]

/-! ### Endpoints -/

/-- A parameter. -/
def EndpointParameter.toJson (p : EndpointParameter) : Json :=
  .record
    [("name", some (.string p.name)),
     ("wire_name", some (.string p.wireName)),
     ("location", some (.string p.place.name)),
     ("type", some p.type.toJson),
     ("required", some (.bool p.required)),
     ("default_value", p.default),
     ("description", p.description.map .string),
     ("deprecated", some (.bool p.deprecated))]

/-- The body type of a response, `null` for an empty body. -/
def bodyJson : Option TypeRef → Json
  | some type => type.toJson
  | none => .null

/-- The table of responses, keys in canonical form. -/
def responsesJson (responses : Table StatusKey (Option TypeRef)) : Json :=
  .object (responses.map fun e => (e.1.text, bodyJson e.2))

/-- An endpoint. -/
def Endpoint.toJson (e : Endpoint) : Json :=
  .record
    [("name", some (.string e.name)),
     ("operation_id", e.operationId.map .string),
     ("http_method", some (.string e.method.name)),
     ("path_template", some (.string e.path)),
     ("parameters", some (.array (e.parameters.map EndpointParameter.toJson))),
     ("request_body_type", e.requestBody.map TypeRef.toJson),
     ("request_body_required", some (.bool e.requestBodyRequired)),
     ("response_map", some (responsesJson e.responses)),
     ("deprecated", some (.bool e.deprecated)),
     ("summary", e.summary.map .string),
     ("description", e.description.map .string)]

/-! ### The interface and its findings -/

/-- A client interface. -/
def Interface.toJson (i : Interface) : Json :=
  .object
    [("models", .array (i.models.map Model.toJson)),
     ("operations", .array (i.endpoints.map Endpoint.toJson))]

/-- A finding. -/
def Diagnostic.toJson (d : Diagnostic) : Json :=
  .object
    [("severity", .string d.severity.name),
     ("code", .string d.code.name),
     ("location", .string d.location),
     ("message", .string d.message)]

end ApiBinding
