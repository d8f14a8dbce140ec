import ApiBinding.Json.Basic

/-!
# Written JSON, before it is read as something

A text is first read as a tree that keeps all that was written: a key may occur
twice in an object, and a part that no value can be made of (a string with half
a surrogate pair, a number beyond the doubles, a nest that is too deep) stays in
the tree as `invalid`.  Whether such a part does harm depends on who reads it: a
field that the reader does not know is skipped whatever it holds.

## Main definitions

* `Tree` — written JSON.
* `Tree.sound` — no part is invalid.
* `Tree.toJson?` — the value that was written, the last of equal keys winning.
* `Tree.ofJson` — a value as its own text would be read.
-/

namespace ApiBinding

/-- Written JSON. -/
inductive Tree where
  | null
  | bool (value : Bool)
  | number (value : Number)
  | string (value : String)
  | array (items : List Tree)
  | object (entries : List (String × Tree))
  /-- A part that has the form of a value but denotes none. -/
  | invalid
  deriving Repr, Inhabited

namespace Tree

mutual

/-- No part of the tree is invalid. -/
def sound : Tree → Bool
  | .array items => soundItems items
  | .object entries => soundEntries entries
  | .invalid => false
  | _ => true

/-- No part of any item is invalid. -/
def soundItems : List Tree → Bool
  | [] => true
  | t :: rest => sound t && soundItems rest

/-- No part of any entry is invalid. -/
def soundEntries : List (String × Tree) → Bool
  | [] => true
  | (_, t) :: rest => sound t && soundEntries rest

end

mutual

/-- The value that was written; of equal keys the last one wins and takes the
place of the first. -/
def toJson? : Tree → Option Json
  | .null => some .null
  | .bool b => some (.bool b)
  | .number n => some (.number n)
  | .string s => some (.string s)
  | .array items => (toItems? items).map .array
  | .object entries => (toEntries? entries).map fun es => .object (Table.ofEntries es)
  | .invalid => none

/-- The values of the items. -/
def toItems? : List Tree → Option (List Json)
  | [] => some []
  | t :: rest => do return (← toJson? t) :: (← toItems? rest)

/-- The values of the entries, equal keys included. -/
def toEntries? : List (String × Tree) → Option (List (String × Json))
  | [] => some []
  | (k, t) :: rest => do return (k, ← toJson? t) :: (← toEntries? rest)

end

mutual

/-- The tree of a value. -/
def ofJson : Json → Tree
  | .null => .null
  | .bool b => .bool b
  | .number n => .number n
  | .string s => .string s
  | .array items => .array (ofItems items)
  | .object entries => .object (ofEntries entries)

/-- The trees of the items. -/
def ofItems : List Json → List Tree
  | [] => []
  | v :: rest => ofJson v :: ofItems rest

/-- The trees of the entries. -/
def ofEntries : List (String × Json) → List (String × Tree)
  | [] => []
  | (k, v) :: rest => (k, ofJson v) :: ofEntries rest

end

/-! ### Reading the simple forms -/

/-- A string. -/
def string? : Tree → Option String
  | .string s => some s
  | _ => none

/-- A truth value. -/
def bool? : Tree → Option Bool
  | .bool b => some b
  | _ => none

/-- A list, every item read in the same way. -/
def list? {α : Type} (read : Tree → Option α) : Tree → Option (List α)
  | .array items => items.mapM read
  | _ => none

/-- A table, every value read in the same way; of equal keys the last one wins
and takes the place of the first. -/
def table? {α : Type} (read : Tree → Option α) : Tree → Option (Table String α)
  | .object entries => (Table.mapM? read entries).map Table.ofEntries
  | _ => none

end Tree

end ApiBinding
