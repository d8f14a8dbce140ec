import ApiBinding.Client.Endpoint
import ApiBinding.Endpoint.PathTemplate

/-!
# Signatures of operations

The parameters of an operation are those of its path and its own; its own ones
replace those with the same name and location.  The signature lists the path
parameters in the order of the template, then the required, then the optional
parameters.  An operation whose parameters do not fit its path is invalid, which
concerns no other operation.

## Main definitions

* `OperationFault` — why an operation is invalid, and the words for it.
* `mergeParameters` — the parameters that apply to an operation.
* `Signature`, `signatureOf` — the parameters in call order.
-/

namespace ApiBinding

/-- Why an operation is invalid. -/
inductive OperationFault where
  | optionalPathParameter (name : String)
  | pathParameterNotInTemplate (name : String)
  | unboundPlaceholder (name : String)
  | duplicateParameter (name scope : String)
  | invalidPlaceholder (group : String)
  deriving DecidableEq, Repr, Inhabited

/-- The words for a fault. -/
def OperationFault.message : OperationFault → String
  | .optionalPathParameter name => s!"path parameter `{name}` must be required"
  | .pathParameterNotInTemplate name =>
    s!"path parameter `{name}` does not appear in the path template"
  | .unboundPlaceholder name =>
    "placeholder `\x7b" ++ name ++ "\x7d` has no matching path parameter"
  | .duplicateParameter name scope =>
    s!"parameter `{name}` is declared more than once in {scope}"
  | .invalidPlaceholder group =>
    s!"path template contains an empty or invalid placeholder `{group}`"

/-! ### Parameters -/

/-- What tells parameters of one operation apart: the name and the location. -/
def Parameter.key (p : Parameter) : String × String := (p.name, p.location)

/-- The place that the location of a parameter names, if there is one. -/
def Parameter.declaredPlace? (p : Parameter) : Option ParameterPlace :=
  Table.get? ParameterPlace.words p.location

/-- Where a parameter is sent; one with any other location is sent in the query. -/
def Parameter.place (p : Parameter) : ParameterPlace := p.declaredPlace?.getD .query

/-- Whether a parameter is sent in the path. -/
def Parameter.inPath (p : Parameter) : Bool := p.place == .path

/-- The first parameter that repeats an earlier one. -/
def firstRepeated : List (String × String) → List Parameter → Option Parameter
  | _, [] => none
  | seen, p :: rest => if p.key ∈ seen then some p else firstRepeated (p.key :: seen) rest

/-- The fault of a list of parameters that repeats one. -/
def repetitionFault? (scope : String) (parameters : List Parameter) : Option OperationFault :=
  (firstRepeated [] parameters).map fun p => .duplicateParameter p.name scope

/-- The parameters that apply to an operation: those of the path, then its own; one
with the name and location of an earlier one takes its place. -/
def mergeParameters (shared own : List Parameter) : List Parameter :=
  Table.values (Table.ofEntries ((shared ++ own).map fun p => (p.key, p)))

/-- The fault of a path parameter that is optional or has no placeholder. -/
def pathFault? (template : PathTemplate) (p : Parameter) : Option OperationFault :=
  if ¬ p.inPath then none
  else if ¬ p.required then some (.optionalPathParameter p.name)
  else if p.name ∉ template.placeholders then some (.pathParameterNotInTemplate p.name)
  else none

/-! ### Signatures -/

/-- The parameters of a valid operation. -/
structure Signature where
  /-- Path parameters in template order, then required, then optional ones. -/
  ordered : List Parameter
  /-- The parameters that ask for a place that does not exist. -/
  reclassified : List Parameter
  deriving Repr, Inhabited

/-- The path parameters in the order of the placeholders. -/
def bindPlaceholders (parameters : List Parameter) :
    List String → Except OperationFault (List Parameter)
  | [] => .ok []
  | name :: rest =>
    match parameters.find? fun p => p.inPath && p.name == name with
    | some p => (bindPlaceholders parameters rest).map (p :: ·)
    | none => .error (.unboundPlaceholder name)

/-- The signature of parameters that are known to be distinct. -/
def orderParameters (template : PathTemplate) (parameters : List Parameter) :
    Except OperationFault Signature :=
  match parameters.findSome? (pathFault? template) with
  | some fault => .error fault
  | none =>
    let others := parameters.filter fun p => !p.inPath
    (bindPlaceholders parameters template.placeholders).map fun inPath =>
      { ordered := inPath ++ others.filter (·.required) ++ others.filter (fun p => !p.required)
        reclassified := parameters.filter fun p => p.declaredPlace?.isNone }

/-- The signature of an operation, or why it is invalid. -/
def signatureOf (template : PathTemplate) (item : PathItem) (op : Operation) :
    Except OperationFault Signature :=
  match template.invalid with
  | some group => .error (.invalidPlaceholder group)
  | none =>
    match (repetitionFault? "path-level parameters" item.parameters).or
        (repetitionFault? "operation parameters" op.parameters) with
    | some fault => .error fault
    | none => orderParameters template (mergeParameters item.parameters op.parameters)

end ApiBinding
