import ApiBinding.CompileError
import ApiBinding.Diagnostic
import ApiBinding.Document.Basic
import ApiBinding.Node

/-!
# Resolution sessions

A session remembers the nodes of resolved pointers, so that all references to a
component share one node, and it knows which pointers are being resolved.  The
open pointers form a stack of frames: a frame knows whether it was entered as a
fragment of the composition below it, and whether it repeats a pointer that was
open already.

A resolution changes the session and may be interrupted; what it did until then
stays done.

## Main definitions

* `Frame`, `Session` — the state of a resolution.
* `Interruption`, `Resolution` — how a resolution may end, and resolutions.
* `Resolution.within` — work done inside a frame.
* `Session.compositionChain` — the pointers that the composition at hand passes
  through.
-/

namespace ApiBinding

/-- A pointer that is being resolved. -/
structure Frame where
  pointer : String
  /-- Entered as a fragment of the composition in the frame below. -/
  link : Bool
  /-- Entered although the pointer was open already; its node is not kept. -/
  fresh : Bool
  deriving DecidableEq, Repr, Inhabited

/-- The state of resolutions in one description. -/
structure Session where
  /-- The nodes of finished pointers. -/
  cache : Table String Node := []
  /-- The open pointers, innermost first. -/
  stack : List Frame := []
  /-- How many nodes have been made. -/
  issued : Nat := 0
  /-- The findings so far. -/
  diagnostics : List Diagnostic := []
  deriving Repr, Inhabited

/-- How a resolution ends without a result. -/
inductive Interruption where
  /-- The description is at fault. -/
  | rejected (cause : CompileError)
  /-- The bound on the number of nested steps was too small. -/
  | exhausted
  deriving DecidableEq, Repr

/-- A computation that resolves schemas. -/
abbrev Resolution : Type → Type := EStateM Interruption Session

namespace Session

/-- Whether a pointer is being resolved. -/
def inProgress (s : Session) (pointer : String) : Bool :=
  s.stack.any fun f => f.pointer == pointer

/-- Whether a pointer is being resolved a second time. -/
def inFreshProgress (s : Session) (pointer : String) : Bool :=
  s.stack.any fun f => f.pointer == pointer && f.fresh

/-- The pointers of the frames from the innermost one down to the one in which the
composition begins. -/
def linkedPointers : List Frame → List String
  | [] => []
  | f :: rest => f.pointer :: if f.link then linkedPointers rest else []

/-- The pointers that the composition at hand passes through, innermost first. -/
def compositionChain (s : Session) : List String := linkedPointers s.stack

end Session

namespace Resolution

variable {α β : Type}

/-- End with a cause. -/
def reject (cause : CompileError) : Resolution α := throw (.rejected cause)

/-- The value, or the end with the cause. -/
def ofExcept : Except CompileError α → Resolution α
  | .ok a => pure a
  | .error cause => reject cause

/-- Report findings. -/
def report (findings : List Diagnostic) : Resolution Unit :=
  modify fun s => { s with diagnostics := s.diagnostics ++ findings }

/-- Keep the node of a pointer. -/
def remember (pointer : String) (node : Node) : Resolution Unit :=
  modify fun s => { s with cache := Table.insert s.cache pointer node }

/-- Make a node: a body with the annotations that come with it, under a serial
number of its own. -/
def issue (body : Body) (name description : Option String) (default : Option Json) :
    Resolution Node := do
  let s ← get
  set { s with issued := s.issued + 1 }
  return { serial := s.issued, shape := body.shape, nullable := body.nullable, name,
           description, default }

/-- Make a node that says no more than its shape. -/
def issuePlain (shape : Shape Node) : Resolution Node := issue ⟨shape, false⟩ none none none

/-- Make a node from a body, annotated by the schema it comes from. -/
def annotate (body : Body) (schema : Schema) (name : Option String) : Resolution Node :=
  issue ⟨body.shape, body.nullable || schema.isNullable⟩ name schema.description schema.default

/-- Work inside a frame; the frames are afterwards as they were before, also when
the work is interrupted. -/
def within (frame : Frame) (work : Resolution α) : Resolution α := fun s =>
  match work { s with stack := frame :: s.stack } with
  | .ok a s' => .ok a { s' with stack := s.stack }
  | .error e s' => .error e { s' with stack := s.stack }

/-- Do the same for every element of a list, the first of which stands at an
index. -/
def eachFrom (work : Nat → α → Resolution β) : Nat → List α → Resolution (List β)
  | _, [] => pure []
  | index, a :: rest => do
    let b ← work index a
    let bs ← eachFrom work (index + 1) rest
    return b :: bs

/-- Do the same for every element of a list. -/
def each (work : α → Resolution β) : List α → Resolution (List β)
  | [] => pure []
  | a :: rest => do
    let b ← work a
    let bs ← each work rest
    return b :: bs

end Resolution

end ApiBinding
