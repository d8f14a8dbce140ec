import ApiBinding.Ordered

/-!
# Types of the client

A type says what values a field, a parameter or a body has.  It never contains
the body of a model: models are referred to by name, so a recursive model needs
no recursive type.

The constructors `TypeRef.optionalOf` and `TypeRef.unionOf` build canonical
types: optional layers do not nest, a union has at least two distinct members,
and none of them is optional or a union itself.

## Main definitions

* `ScalarKind`, `TypeRef` — types.
* `TypeRef.optionalOf`, `TypeRef.unionOf` — canonical optional types and unions.
* `TypeRef.references` — the models a type refers to.
* `TypeRef.text` — a type as a reader sees it.
-/

namespace ApiBinding

/-- The kinds of scalar values. -/
inductive ScalarKind where
  | string
  | integer
  | float
  | bool
  /-- A decimal number of arbitrary precision. -/
  | decimal
  | bytes
  deriving DecidableEq, Repr, Inhabited

namespace ScalarKind

/-- The word for a kind. -/
def name : ScalarKind → String
  | .string => "string"
  | .integer => "integer"
  | .float => "float"
  | .bool => "bool"
  | .decimal => "decimal"
  | .bytes => "bytes"

/-- The word for a kind in the text of a type. -/
def short : ScalarKind → String
  | .integer => "int"
  | k => k.name

/-- All kinds. -/
def all : List ScalarKind := [.string, .integer, .float, .bool, .decimal, .bytes]

/-- All kinds with their words. -/
def words : List (String × ScalarKind) := all.map fun k => (k.name, k)

end ScalarKind

/-- A type of the client. -/
inductive TypeRef where
  /-- Any value. -/
  | any
  | scalar (kind : ScalarKind)
  /-- The model of this name. -/
  | reference (name : String)
  | list (item : TypeRef)
  /-- A map from strings. -/
  | dict (value : TypeRef)
  | optional (inner : TypeRef)
  | union (members : List TypeRef)
  deriving Repr, Inhabited

namespace TypeRef

/-! ### Equality -/

mutual

/-- Equality of types. -/
def beq : TypeRef → TypeRef → Bool
  | .any, .any => true
  | .scalar j, .scalar k => decide (j = k)
  | .reference m, .reference n => decide (m = n)
  | .list s, .list t => beq s t
  | .dict s, .dict t => beq s t
  | .optional s, .optional t => beq s t
  | .union ss, .union ts => beqList ss ts
  | _, _ => false

/-- Equality of lists of types. -/
def beqList : List TypeRef → List TypeRef → Bool
  | [], [] => true
  | s :: ss, t :: ts => beq s t && beqList ss ts
  | _, _ => false

end

mutual

theorem beq_iff : ∀ s t : TypeRef, beq s t = true ↔ s = t
  | .any, t => by cases t <;> simp [beq]
  | .scalar _, t => by cases t <;> simp [beq]
  | .reference _, t => by cases t <;> simp [beq]
  | .list s, t => by cases t <;> simp [beq, beq_iff s]
  | .dict s, t => by cases t <;> simp [beq, beq_iff s]
  | .optional s, t => by cases t <;> simp [beq, beq_iff s]
  | .union ss, t => by cases t <;> simp [beq, beqList_iff ss]

theorem beqList_iff : ∀ ss ts : List TypeRef, beqList ss ts = true ↔ ss = ts
  | [], ts => by cases ts <;> simp [beqList]
  | s :: ss, ts => by cases ts <;> simp [beqList, beq_iff s, beqList_iff ss]

end

instance : DecidableEq TypeRef := fun s t => decidable_of_iff _ (beq_iff s t)

/-! ### Canonical types -/

/-- Whether the outermost layer is optional. -/
def isOptional : TypeRef → Bool
  | .optional _ => true
  | _ => false

/-- The type without one optional layer. -/
def nonOptional : TypeRef → TypeRef
  | .optional inner => inner
  | t => t

/-- The type, optional; an optional type stays as it is. -/
def optionalOf (t : TypeRef) : TypeRef := if t.isOptional then t else .optional t

mutual

/-- The members that a type contributes to a union: the parts that are neither
optional nor a union, from left to right. -/
def leaves : TypeRef → List TypeRef
  | .optional inner => leaves inner
  | .union members => leavesOf members
  | t => [t]

/-- The members that a list of types contributes to a union. -/
def leavesOf : List TypeRef → List TypeRef
  | [] => []
  | t :: rest => leaves t ++ leavesOf rest

end

mutual

/-- Whether an optional layer is passed on the way to the leaves. -/
def meetsOptional : TypeRef → Bool
  | .optional _ => true
  | .union members => someMeetsOptional members
  | _ => false

/-- Whether an optional layer is passed in one of the types. -/
def someMeetsOptional : List TypeRef → Bool
  | [] => false
  | t :: rest => meetsOptional t || someMeetsOptional rest

end

/-- A union of distinct leaves: a single leaf stands for itself, and no leaf for
any value. -/
def ofLeaves : List TypeRef → TypeRef
  | [] => .any
  | [t] => t
  | ts => .union ts

/-- The union of types: nested unions are flattened, repetitions dropped, and the
whole is optional when a member is. -/
def unionOf (members : List TypeRef) : TypeRef :=
  let core := ofLeaves (distinct (leavesOf members))
  if someMeetsOptional members then core.optionalOf else core

/-! ### Views -/

mutual

/-- The models a type refers to, from left to right, with repetitions. -/
def references : TypeRef → List String
  | .any => []
  | .scalar _ => []
  | .reference name => [name]
  | .list item => references item
  | .dict value => references value
  | .optional inner => references inner
  | .union members => referencesOf members

/-- The models that the types of a list refer to. -/
def referencesOf : List TypeRef → List String
  | [] => []
  | t :: rest => references t ++ referencesOf rest

end

mutual

/-- A type as a reader sees it. -/
def text : TypeRef → String
  | .any => "any"
  | .scalar kind => kind.short
  | .reference name => name
  | .list item => "list[" ++ text item ++ "]"
  | .dict value => "dict[string, " ++ text value ++ "]"
  | .optional inner => "optional[" ++ text inner ++ "]"
  | .union members => " | ".intercalate (texts members)

/-- The types of a list as a reader sees them. -/
def texts : List TypeRef → List String
  | [] => []
  | t :: rest => text t :: texts rest

end

end TypeRef

end ApiBinding
