import ApiBinding.Client.StatusKey
import ApiBinding.Client.TypeRef
import ApiBinding.Document.Basic

/-!
# Endpoints of the client

An endpoint is one callable operation: its parameters in call order, the type of
its request body, and the type of the body for every declared status.

## Main definitions

* `ParameterPlace`, `EndpointParameter`, `Endpoint` — endpoints.
* `Endpoint.parametersIn` — the parameters that are sent in one place.
* `Endpoint.responseFor` — the entry that answers for an observed status.
-/

namespace ApiBinding

/-- Where a parameter is sent. -/
inductive ParameterPlace where
  | path
  | query
  | header
  deriving DecidableEq, Repr, Inhabited

namespace ParameterPlace

/-- The word for a place. -/
def name : ParameterPlace → String
  | .path => "path"
  | .query => "query"
  | .header => "header"

/-- All places with their words. -/
def words : List (String × ParameterPlace) :=
  [("path", .path), ("query", .query), ("header", .header)]

end ParameterPlace

/-- A parameter of an endpoint. -/
structure EndpointParameter where
  /-- The identifier of the parameter. -/
  name : String
  /-- The name that is sent. -/
  wireName : String
  place : ParameterPlace
  type : TypeRef
  required : Bool
  default : Option Json := none
  description : Option String := none
  deprecated : Bool := false
  deriving Repr, Inhabited

/-- A callable operation. -/
structure Endpoint where
  /-- The identifier of the callable. -/
  name : String
  /-- The operation id as it was declared. -/
  operationId : Option String
  method : HttpMethod
  /-- The path with its placeholders. -/
  path : String
  /-- Path parameters in template order, then required, then optional ones. -/
  parameters : List EndpointParameter
  requestBody : Option TypeRef
  requestBodyRequired : Bool
  /-- The body type of every declared status; none for an empty body. -/
  responses : Table StatusKey (Option TypeRef)
  deprecated : Bool
  summary : Option String
  description : Option String
  deriving Repr, Inhabited

/-- What the declared responses say about an observed status. -/
inductive ResponseLookup where
  /-- A body of this type. -/
  | body (type : TypeRef)
  /-- No body. -/
  | empty
  /-- No entry covers the status. -/
  | unmapped
  deriving DecidableEq, Repr, Inhabited

namespace Endpoint

/-- The parameters that are sent in one place, in call order. -/
def parametersIn (e : Endpoint) (place : ParameterPlace) : List EndpointParameter :=
  e.parameters.filter fun p => p.place == place

/-- The class that a status of 16 bits belongs to; it is kept in 8 bits. -/
def statusClass (code : UInt16) : Nat := (code / 100).toUInt8.toNat

/-- The entry for a status: its own, else that of its class, else the default. -/
def responseEntry? (e : Endpoint) (code : UInt16) : Option (Option TypeRef) :=
  (Table.get? e.responses (.code code.toNat)).or
    ((Table.get? e.responses (.range (statusClass code))).or
      (Table.get? e.responses .default))

/-- What the declared responses say about a status. -/
def responseFor (e : Endpoint) (code : UInt16) : ResponseLookup :=
  match e.responseEntry? code with
  | some (some type) => .body type
  | some none => .empty
  | none => .unmapped

end Endpoint

end ApiBinding
