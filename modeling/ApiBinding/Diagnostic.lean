/-!
# Findings

What is worth reporting and does not keep a client from being generated.  A
warning stands for a decision that was made; an error stands for something that
was left out.

## Main definitions

* `Severity`, `DiagnosticCode`, `Diagnostic` — a finding.
* `Diagnostic.text` — its one-line form.
* `Diagnostic.countOf` — how many findings have a severity.
-/

namespace ApiBinding

/-- How serious a finding is. -/
inductive Severity where
  /-- A fixed rule decided; nothing is missing. -/
  | warning
  /-- Something was left out. -/
  | error
  deriving DecidableEq, Repr, Inhabited

/-- What a finding is about. -/
inductive DiagnosticCode where
  /-- A name was taken already and got a number. -/
  | nameCollision
  /-- Two fragments of a composition declare a property differently. -/
  | allOfConflict
  /-- A fragment of a composition is no object and was not merged. -/
  | allOfNonObjectFragment
  /-- A discriminator on an untagged union was dropped. -/
  | ignoredDiscriminator
  /-- An operation is invalid and was left out. -/
  | skippedOperation
  /-- A parameter is sent somewhere else than it asks for. -/
  | unsupportedParameterLocation
  /-- A response has a key that is no status. -/
  | invalidResponseStatus
  deriving DecidableEq, Repr, Inhabited

/-- A finding at a place of the description. -/
structure Diagnostic where
  severity : Severity
  code : DiagnosticCode
  /-- A path into the description, in pointer form. -/
  location : String
  message : String
  deriving DecidableEq, Repr, Inhabited

namespace Severity

/-- The word for a severity. -/
def name : Severity → String
  | .warning => "warning"
  | .error => "error"

/-- All severities with their words. -/
def words : List (String × Severity) := [("warning", .warning), ("error", .error)]

end Severity

namespace DiagnosticCode

/-- The word for a code. -/
def name : DiagnosticCode → String
  | .nameCollision => "name_collision"
  | .allOfConflict => "all_of_conflict"
  | .allOfNonObjectFragment => "all_of_non_object_fragment"
  | .ignoredDiscriminator => "ignored_discriminator"
  | .skippedOperation => "skipped_operation"
  | .unsupportedParameterLocation => "unsupported_parameter_location"
  | .invalidResponseStatus => "invalid_response_status"

/-- All codes. -/
def all : List DiagnosticCode :=
  [.nameCollision, .allOfConflict, .allOfNonObjectFragment, .ignoredDiscriminator,
    .skippedOperation, .unsupportedParameterLocation, .invalidResponseStatus]

/-- All codes with their words. -/
def words : List (String × DiagnosticCode) := all.map fun c => (c.name, c)

end DiagnosticCode

namespace Diagnostic

/-- A warning. -/
def warning (code : DiagnosticCode) (location message : String) : Diagnostic :=
  ⟨.warning, code, location, message⟩

/-- An error. -/
def error (code : DiagnosticCode) (location message : String) : Diagnostic :=
  ⟨.error, code, location, message⟩

/-- The finding on one line. -/
def text (d : Diagnostic) : String :=
  d.severity.name ++ ": " ++ d.message ++ " (" ++ d.location ++ ")"

/-- How many findings have a severity. -/
def countOf (severity : Severity) (ds : List Diagnostic) : Nat :=
  ds.countP fun d => d.severity == severity

end Diagnostic

end ApiBinding
