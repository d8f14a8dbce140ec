import ApiBinding.Number.Literal
import ApiBinding.Ordered

/-!
# JSON values

A value keeps the order in which the keys of an object were written, and shows
it wherever the value is written out again.  Two values are the same when they
differ at most in that order.

## Main definitions

* `Json` — values; the keys of an object are distinct.
* `Json.same` — equality up to the order of keys.
-/

namespace ApiBinding

/-- A JSON value.  An object is a table: its keys are distinct and ordered. -/
inductive Json where
  | null
  | bool (value : Bool)
  | number (value : Number)
  | string (value : String)
  | array (items : List Json)
  | object (entries : List (String × Json))
  deriving Repr, Inhabited

namespace Json

/-- Whether the value is `null`. -/
def isNull : Json → Bool
  | .null => true
  | _ => false

/-- The text of a string value. -/
def string? : Json → Option String
  | .string s => some s
  | _ => none

/-- A string, or `null` for none. -/
def ofString? : Option String → Json
  | some s => .string s
  | none => .null

mutual

/-- Equality of values: arrays item by item, objects key by key in any order. -/
def same : Json → Json → Bool
  | .null, .null => true
  | .bool a, .bool b => a == b
  | .number a, .number b => a.same b
  | .string a, .string b => a == b
  | .array xs, .array ys => sameItems xs ys
  | .object xs, .object ys => xs.length == ys.length && sameEntries xs ys
  | _, _ => false

/-- Equality of arrays. -/
def sameItems : List Json → List Json → Bool
  | [], [] => true
  | x :: xs, y :: ys => same x y && sameItems xs ys
  | _, _ => false

/-- Every entry of the first table is an entry of the second. -/
def sameEntries : List (String × Json) → List (String × Json) → Bool
  | [], _ => true
  | (k, x) :: xs, ys =>
    (match Table.get? ys k with
      | some y => same x y
      | none => false) && sameEntries xs ys

end

/-- Equality of optional values. -/
def sameOption : Option Json → Option Json → Bool
  | none, none => true
  | some x, some y => same x y
  | _, _ => false

end Json

end ApiBinding
