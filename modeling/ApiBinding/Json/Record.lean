import ApiBinding.Json.Tree

/-!
# Records in written JSON

A record with declared fields is written as an object, or as an array of the
field values in declaration order.  In an object unknown keys are skipped and a
known key may occur once; in an array the fields at the end may be missing, and
more items than fields are an error.

The values of a record are left in whatever form the caller has read them, so
that a recursive reader can prepare its parts first.

## Main definitions

* `Record` — the declared fields that were written.
* `Record.ofEntries?`, `Record.ofItems?`, `Record.ofTree?` — the two written
  forms.
* `Record.field?`, `Record.fieldOr?`, `Record.lenient?` — mandatory fields,
  fields with a default, and fields that only an object may leave out.
* `Tree.Timing`, `Tree.wordWhen?`, `Tree.headWhen?` — words, and the ways to write
  them.
-/

namespace ApiBinding

/-- The declared fields of a record that were written. -/
structure Record (τ : Type) where
  /-- Whether the record was written as an object. -/
  named : Bool
  /-- The written fields, at most one for each declared name. -/
  fields : List (String × τ)

namespace Record

variable {τ α : Type}

/-- The record of an object; `none` when a declared field is repeated. -/
def ofEntries? (names : List String) (entries : List (String × τ)) : Option (Record τ) :=
  let known := entries.filter fun e => names.contains e.1
  if (known.map Prod.fst).Nodup then some ⟨true, known⟩ else none

/-- The record of an array; `none` when it has more items than fields. -/
def ofItems? (names : List String) (items : List τ) : Option (Record τ) :=
  if items.length ≤ names.length then some ⟨false, names.zip items⟩ else none

/-- The record in either form. -/
def ofTree? (names : List String) : Tree → Option (Record Tree)
  | .object entries => ofEntries? names entries
  | .array items => ofItems? names items
  | _ => none

/-- What was written for a field. -/
def get? (r : Record τ) (name : String) : Option τ := Table.get? r.fields name

/-- A mandatory field. -/
def field? (r : Record τ) (name : String) (read : τ → Option α) : Option α :=
  (r.get? name).bind read

/-- A field with a value of its own when it is missing. -/
def fieldOr? (r : Record τ) (name : String) (missing : α) (read : τ → Option α) : Option α :=
  match r.get? name with
  | some t => read t
  | none => some missing

/-- A field that may be missing from an object but not from an array. -/
def lenient? (r : Record τ) (name : String) (read : τ → Option (Option α)) :
    Option (Option α) :=
  match r.get? name with
  | some t => read t
  | none => if r.named then some none else none

end Record

namespace Tree

/-- A value or `null` for none. -/
def nullable? {α : Type} (read : Tree → Option α) : Tree → Option (Option α)
  | .null => some none
  | t => (read t).map some

/-- When a part of a tree is read: at once, or after it has been set aside because
what it is stands behind it or around it.  A part that was set aside may be written
in a few more ways. -/
inductive Timing where
  /-- Read as it is met. -/
  | atOnce
  /-- Read when it is known what it is. -/
  | setAside
  deriving DecidableEq, Repr

/-- Whether a tree can stand behind a word that needs no content. -/
def isNothing : Timing → Tree → Bool
  | _, .null => true
  | .setAside, .object [] => true
  | _, _ => false

/-- One of a fixed set of words, written as a string or as an object that maps the
word to nothing. -/
def wordWhen? {α : Type} (timing : Timing) (words : List (String × α)) : Tree → Option α
  | .string s => Table.get? words s
  | .object [(s, t)] => if isNothing timing t then Table.get? words s else none
  | _ => none

/-- One of a fixed set of words, in a part that is read at once. -/
def word? {α : Type} (words : List (String × α)) (t : Tree) : Option α :=
  wordWhen? .atOnce words t

/-- One of a fixed set of words at the head of an array, written as a string or, in
a part that was set aside, as its position among the words. -/
def headWhen? {α : Type} (timing : Timing) (words : List (String × α)) : Tree → Option α
  | .string s => Table.get? words s
  | .number (.integer n) =>
    if timing = .setAside ∧ 0 ≤ n then (words[n.toNat]?).map Prod.snd else none
  | _ => none

end Tree

end ApiBinding
