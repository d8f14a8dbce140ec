import ApiBinding.Diagnostic
import ApiBinding.Naming.Identifier

/-!
# Distinct names

Names are handed out in scopes.  The first to ask for a name gets it as it is;
who comes later and would get the same gets the lowest free number behind it,
from 2 on.  A name that was handed out once is never changed by later requests.

## Main definitions

* `NameScope` — a convention and the names that are taken.
* `NameScope.allocate` — a name that nobody else has.
* `allocateName` — the same, with a finding when a number was needed.
-/

namespace ApiBinding

/-- Names that must differ from each other. -/
structure NameScope where
  case : Case
  taken : List String := []
  deriving DecidableEq, Repr, Inhabited

namespace NameScope

/-- A name with a number. -/
def numbered (case : Case) (base : String) (n : Nat) : String :=
  match case with
  | .snake => base ++ "_" ++ toString n
  | .upperCamel => base ++ toString n

/-- The lowest number from 2 on that makes the name free.  Among as many numbers
as there are names taken, and one more, some number does. -/
def freeNumber (scope : NameScope) (base : String) : Nat :=
  ((List.range (scope.taken.length + 1)).map (· + 2)).find?
    (fun n => numbered scope.case base n ∉ scope.taken) |>.getD 2

/-- Take a name. -/
def take (scope : NameScope) (name : String) : NameScope :=
  { scope with taken := name :: scope.taken }

/-- A free name for a raw name, whether it needed a number, and the scope without
it. -/
def allocate (scope : NameScope) (reserved : NamingConfig) (raw : String) :
    String × Bool × NameScope :=
  let base := identifierOf scope.case reserved raw
  if base ∈ scope.taken then
    let name := numbered scope.case base (scope.freeNumber base)
    (name, true, scope.take name)
  else (base, false, scope.take base)

end NameScope

/-- The finding about a name that needed a number. -/
def collision (raw name location : String) : Diagnostic :=
  .warning .nameCollision location
    s!"`{raw}` collides with an existing name; renamed to `{name}`"

/-- A free name for a raw name, the scope without it, and the finding at the given
place if the name needed a number. -/
def allocateName (reserved : NamingConfig) (scope : NameScope) (raw location : String) :
    String × NameScope × List Diagnostic :=
  let (name, suffixed, scope) := scope.allocate reserved raw
  (name, scope, if suffixed then [collision raw name location] else [])

end ApiBinding
