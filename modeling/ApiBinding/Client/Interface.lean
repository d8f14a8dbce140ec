import ApiBinding.Client.Endpoint
import ApiBinding.Client.Model

/-!
# The client interface

All models and all endpoints of one description: what a code generator starts
from.

## Main definitions

* `Interface` — models and endpoints.
* `Interface.model?`, `Interface.endpoint?` — lookup by name.
-/

namespace ApiBinding

/-- The models and endpoints of a client. -/
structure Interface where
  /-- Models in order of discovery. -/
  models : List Model := []
  /-- Endpoints in the order of the path table. -/
  endpoints : List Endpoint := []
  deriving Repr, Inhabited

namespace Interface

/-- The first model of a name. -/
def model? (i : Interface) (name : String) : Option Model :=
  i.models.find? fun m => m.name == name

/-- The first endpoint of a name. -/
def endpoint? (i : Interface) (name : String) : Option Endpoint :=
  i.endpoints.find? fun e => e.name == name

/-- The names of the models. -/
def modelNames (i : Interface) : List String := i.models.map Model.name

end Interface

end ApiBinding
