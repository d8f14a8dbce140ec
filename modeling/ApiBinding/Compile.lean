import ApiBinding.Client.Interface
import ApiBinding.Config
import ApiBinding.Endpoint.Signature
import ApiBinding.Resolver
import ApiBinding.Typing

/-!
# From a description to a client

First every component gets a model: all names are reserved, then the bodies are
made in document order.  Then the path table is walked and every valid operation
becomes an endpoint; an invalid one is left out with a finding.  Models for
schemas inside other schemas are made on the way.

## Main definitions

* `Workspace`, `Build` — what is shared by all parts of a compilation.
* `buildModels` — the models of the components.
* `extractEndpoints` — the endpoints of the path table.
* `compile` — the client of a description.
-/

namespace ApiBinding

/-! ### The workspace -/

/-- What is shared by all parts of a compilation; the findings are kept in the
session. -/
structure Workspace where
  session : Session := {}
  registry : Registry := {}
  deriving Repr, Inhabited

/-- A part of a compilation. -/
abbrev Build : Type → Type := EStateM Interruption Workspace

namespace Build

variable {α : Type}

/-- Resolve schemas. -/
def resolving (work : Resolution α) : Build α := fun w =>
  match work w.session with
  | .ok a session => .ok a { w with session := session }
  | .error e session => .error e { w with session := session }

/-- Make types and models. -/
def typing (work : Typing α) : Build α := fun w =>
  let (a, bench) := work ⟨w.registry, w.session.diagnostics⟩
  .ok a { session := { w.session with diagnostics := bench.diagnostics }
          registry := bench.registry }

/-- Report findings. -/
def report (findings : List Diagnostic) : Build Unit := resolving (Resolution.report findings)

/-- The value, or the end with the cause. -/
def ofExcept (value : Except CompileError α) : Build α := resolving (Resolution.ofExcept value)

end Build

open Build

/-! ### Components -/

/-- Reserve a model name for each component. -/
def reserveNames (naming : NamingConfig) : List String → Build Unit
  | [] => return
  | component :: rest => do
    let _ ← typing (Typing.reserveComponent naming component)
    reserveNames naming rest

/-- Make the body of each component's model. -/
def buildBodies (d : Document) (naming : NamingConfig) : List String → Build Unit
  | [] => return
  | component :: rest => do
    let node ← resolving (d.resolveComponent component)
    typing (Typing.fillComponent naming component node (Pointer.component component))
    buildBodies d naming rest

/-- Make the models of the components. -/
def buildModels (d : Document) (naming : NamingConfig) : Build Unit := do
  reserveNames naming d.componentNames
  buildBodies d naming d.componentNames

/-! ### Endpoints -/

/-- The type of a schema that stands outside the components. -/
def schemaType (d : Document) (naming : NamingConfig) (schema : Schema)
    (hint location : String) : Build TypeRef := do
  let node ← resolving (d.resolveSchema schema location)
  typing (Typing.nodeType naming node hint location)

/-- The name of an operation without an id: its method and the fixed segments of
its path. -/
def synthesizedName (method : HttpMethod) (path : String) : String :=
  let (first, more) := Pointer.splitSlashes path.toList
  let fixed := (first :: more).filter fun s => !s.isEmpty && !s.contains '\x7b'
  if fixed.isEmpty then method.key
  else method.key ++ "_" ++ String.ofList (['_'].intercalate fixed)

/-- The first media type with a schema: preferred ones first, then in document
order. -/
def selectMedia (preferred : List String) (content : Table String MediaType) :
    Option (String × Schema) :=
  let entry (media : String) : Option (String × Schema) := do
    return (media, ← (← Table.get? content media).schema)
  (preferred.findSome? entry).or
    (content.findSome? fun e => e.2.schema.map fun schema => (e.1, schema))

/-- The finding about a parameter that asks for a place that does not exist. -/
def unsupportedLocation (location : String) (p : Parameter) : Diagnostic :=
  .warning .unsupportedParameterLocation
    (location ++ "/parameters/" ++ Pointer.escape p.name)
    s!"parameter `{p.name}` in `{p.location}` is not supported and is sent as a query parameter"

/-- What the parts of one endpoint have in common. -/
structure EndpointContext where
  document : Document
  config : Config
  /-- The place of the operation in the description. -/
  location : String
  /-- What the models of the operation are named after. -/
  hint : String

namespace EndpointContext

variable (ctx : EndpointContext)

/-- The type of a schema of the operation. -/
def type (schema : Schema) (hint location : String) : Build TypeRef :=
  schemaType ctx.document ctx.config.naming schema (ctx.hint ++ hint) location

/-- The type of a parameter; without a schema it is a string. -/
def parameterType (p : Parameter) (place : String) : Build TypeRef :=
  match p.schema with
  | some schema => ctx.type schema (camelHint p.name) place
  | none => return .scalar .string

/-- The parameters in call order. -/
def parameters : NameScope → List Parameter → Build (List EndpointParameter)
  | _, [] => return []
  | scope, p :: rest => do
    let place := ctx.location ++ "/parameters/" ++ Pointer.escape p.name
    let type ← ctx.parameterType p place
    let (name, scope) ← typing (Typing.allocate ctx.config.naming scope p.name place)
    let parameter : EndpointParameter :=
      { name, wireName := p.name, place := p.place, type, required := p.required
        default := p.default.or (p.schema.bind Schema.default)
        description := p.description, deprecated := p.deprecated }
    let more ← parameters scope rest
    return parameter :: more

/-- The type of a body, from the media type that is picked; none if no media type
has a schema. -/
def bodyType (content : Table String MediaType) (hint location : String) :
    Build (Option TypeRef) :=
  match selectMedia ctx.config.media.preferred content with
  | none => return none
  | some (media, schema) => do
    let place := location ++ "/content/" ++ Pointer.escape media ++ "/schema"
    return some (← ctx.type schema hint place)

/-- The type of the request body and whether it is required. -/
def requestBody (op : Operation) : Build (Option TypeRef × Bool) :=
  match op.requestBody with
  | none => return (none, false)
  | some body => do
    let type ← ctx.bodyType body.content "Request" (ctx.location ++ "/requestBody")
    return (type, body.required)

/-- The table of responses.  A response under a key that is no status is left out
with a finding; of keys that mean the same status the last one wins and takes the
place of the first. -/
def responses (found : Table StatusKey (Option TypeRef)) :
    List (String × Response) → Build (Table StatusKey (Option TypeRef))
  | [] => return found
  | (key, response) :: rest => do
    let place := ctx.location ++ "/responses/" ++ Pointer.escape key
    match StatusKey.ofText? key with
    | none =>
      report [.warning .invalidResponseStatus place
        (StatusKey.invalidMessage key ++ "; response ignored")]
      responses found rest
    | some status =>
      let type ← ctx.bodyType response.content ("Response" ++ camelHint key) place
      responses (Table.insert found status type) rest

end EndpointContext

/-- The endpoint of a valid operation, and the names of callables without its
own. -/
def buildEndpoint (d : Document) (config : Config) (callables : NameScope) (path : String)
    (method : HttpMethod) (op : Operation) (signature : Signature) (location : String) :
    Build (Endpoint × NameScope) := do
  report (signature.reclassified.map (unsupportedLocation location))
  let rawName := op.operationId.getD (synthesizedName method path)
  let (name, callables) ← typing (Typing.allocate config.naming callables rawName location)
  let ctx : EndpointContext := { document := d, config, location, hint := camelHint name }
  let parameters ← ctx.parameters { case := .snake } signature.ordered
  let (requestBody, requestBodyRequired) ← ctx.requestBody op
  let responses ← ctx.responses [] op.responses
  return ({ name, operationId := op.operationId, method, path, parameters, requestBody,
            requestBodyRequired, responses, deprecated := op.deprecated, summary := op.summary,
            description := op.description }, callables)

/-- The finding about an operation that is left out. -/
def skippedOperation (path : String) (method : HttpMethod) (location : String)
    (fault : OperationFault) : Diagnostic :=
  .error .skippedOperation location
    (method.name ++ " " ++ path ++ " skipped: " ++ fault.message)

/-- The endpoints of the operations of a path, and the names of callables without
theirs. -/
def pathEndpoints (d : Document) (config : Config) (path : String) (item : PathItem)
    (template : PathTemplate) :
    NameScope → List (HttpMethod × Operation) → Build (List Endpoint × NameScope)
  | callables, [] => return ([], callables)
  | callables, (method, op) :: rest => do
    let location := Pointer.operation path method.key
    match signatureOf template item op with
    | .error fault =>
      report [skippedOperation path method location fault]
      pathEndpoints d config path item template callables rest
    | .ok signature =>
      let (endpoint, callables) ←
        buildEndpoint d config callables path method op signature location
      let (more, callables) ← pathEndpoints d config path item template callables rest
      return (endpoint :: more, callables)

/-- The endpoints of a path table. -/
def tableEndpoints (d : Document) (config : Config) :
    NameScope → List (String × PathItem) → Build (List Endpoint)
  | _, [] => return []
  | callables, (path, item) :: rest => do
    let template ← ofExcept (PathTemplate.ofPath path)
    let (endpoints, callables) ←
      pathEndpoints d config path item template callables item.operations
    let more ← tableEndpoints d config callables rest
    return endpoints ++ more

/-- The endpoints of a description. -/
def extractEndpoints (d : Document) (config : Config) : Build (List Endpoint) :=
  tableEndpoints d config { case := .snake } d.paths

/-! ### Compilation -/

/-- The client of a description and the findings about it. -/
structure Compilation where
  interface : Interface
  diagnostics : List Diagnostic
  deriving Repr, Inhabited

/-- Make the models and the endpoints. -/
def compileAll (config : Config) (d : Document) : Build (List Endpoint) := do
  buildModels d config.naming
  extractEndpoints d config

/-- The client of a description, or why there is none. -/
def compile (config : Config) (d : Document) : Except Interruption Compilation :=
  match compileAll config d {} with
  | .ok endpoints w =>
    .ok { interface := { models := w.registry.finish, endpoints },
          diagnostics := w.session.diagnostics }
  | .error interruption _ => .error interruption

end ApiBinding
