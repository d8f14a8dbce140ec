import ApiBinding.Json.Tree

/-!
# TOML tables

Configuration is written in TOML.  Its settings are strings, lists and tables, so
these are the values that are kept; of any other value only the fact that it is
there.  A table remembers how it came about, because that decides what may still
be added to it.

## Main definitions

* `Toml`, `Toml.Origin` — values and the ways in which tables arise.
* `Toml.assign` — a key with a value, the key possibly dotted.
* `Toml.openTable`, `Toml.openElement` — the two kinds of headers.
* `Toml.toTree` — the value as written JSON.
-/

namespace ApiBinding

/-- How a table came about. -/
inductive Toml.Origin where
  /-- Written between braces; closed. -/
  | inline
  /-- Only named as a part of a longer header; a header of its own may follow. -/
  | implicit
  /-- Written under a header of its own. -/
  | header
  /-- Made by dotted keys, which may go on adding to it. -/
  | dotted
  deriving DecidableEq, Repr

/-- A value of a configuration text. -/
inductive Toml where
  | string (value : String)
  /-- A number, a date, a time or a truth value; no setting is one. -/
  | scalar
  | array (items : List Toml)
  | table (origin : Toml.Origin) (entries : List (String × Toml))
  /-- The tables under a repeated header. -/
  | elements (tables : List Toml)
  deriving Repr

namespace Toml

/-- The entries of a table under construction. -/
abbrev Entries : Type := Table String Toml

/-- Enter a value under a dotted key: all names but the last name tables that only
dotted keys have touched; the last name must be new. -/
def assign (value : Toml) : List String → Entries → Option Entries
  | [], _ => none
  | [key], es => if (Table.get? es key).isSome then none else some (Table.insert es key value)
  | key :: more, es =>
    match Table.get? es key with
    | none => do
      let inner ← assign value more []
      return Table.insert es key (.table .dotted inner)
    | some (.table .dotted entries) => do
      let inner ← assign value more entries
      return Table.insert es key (.table .dotted inner)
    | some _ => none

/-- Change the table at a path of headers; tables that are missing on the way are
made, and of repeated headers the last table counts. -/
def atPath (change : Entries → Option Entries) : List String → Entries → Option Entries
  | [], es => change es
  | key :: more, es =>
    match Table.get? es key with
    | none => do
      let inner ← atPath change more []
      return Table.insert es key (.table .implicit inner)
    | some (.table origin entries) =>
      if origin = .inline then none
      else do
        let inner ← atPath change more entries
        return Table.insert es key (.table origin inner)
    | some (.elements tables) =>
      match tables.getLast? with
      | some (.table origin entries) => do
        let inner ← atPath change more entries
        return Table.insert es key (.elements (tables.dropLast ++ [.table origin inner]))
      | _ => none
    | some _ => none

/-- Open the table of a header: it is new, or was only named on the way to
another one. -/
def openTable (key : String) (es : Entries) : Option Entries :=
  match Table.get? es key with
  | none => some (Table.insert es key (.table .header []))
  | some (.table .implicit entries) => some (Table.insert es key (.table .header entries))
  | some _ => none

/-- Open one more table under a repeated header. -/
def openElement (key : String) (es : Entries) : Option Entries :=
  match Table.get? es key with
  | none => some (Table.insert es key (.elements [.table .header []]))
  | some (.elements tables) =>
    some (Table.insert es key (.elements (tables ++ [.table .header []])))
  | some _ => none

mutual

/-- The value as written JSON; a scalar that no setting can be denotes no value. -/
def toTree : Toml → Tree
  | .string s => .string s
  | .scalar => .invalid
  | .array items => .array (toTrees items)
  | .table _ entries => .object (toEntries entries)
  | .elements tables => .array (toTrees tables)

/-- The items as written JSON. -/
def toTrees : List Toml → List Tree
  | [] => []
  | t :: rest => toTree t :: toTrees rest

/-- The entries as written JSON. -/
def toEntries : List (String × Toml) → List (String × Tree)
  | [] => []
  | (k, t) :: rest => (k, toTree t) :: toEntries rest

end

end Toml

end ApiBinding
