import ApiBinding.Json.Record
import ApiBinding.Naming.Reserved
import ApiBinding.Toml.Reader

/-!
# Configuration

A configuration says which words generated names avoid and which media types are
preferred.  It is written in TOML, or given as a JSON value.  Missing settings
take their defaults; a setting that does not exist is an error.

The two notations differ in two details of how a record and a word may be
written, which `Dialect` collects.

## Main definitions

* `MediaConfig`, `Config` — the settings.
* `Config.ofToml?`, `Config.ofJson?` — the settings of a text and of a value.
* `Config.load?` — the settings of a file, given its text.
-/

namespace ApiBinding

/-- Which media types are preferred. -/
structure MediaConfig where
  /-- Media types, tried in this order when the schema of a body is picked. -/
  preferred : List String := ["application/json"]
  deriving DecidableEq, Repr, Inhabited

/-- The settings of one generation. -/
structure Config where
  naming : NamingConfig := {}
  media : MediaConfig := {}
  deriving DecidableEq, Repr, Inhabited

namespace Config

/-- What a notation allows beyond the plain forms. -/
structure Dialect where
  /-- Whether an array that stands for a record may have more items than the
  record has fields. -/
  surplus : Bool
  /-- What the value of a word may be that is written as a table. -/
  payload : Tree → Bool

/-- JSON: no surplus, and `null` behind a word. -/
def jsonDialect : Dialect where
  surplus := false
  payload
    | .null => true
    | _ => false

/-- TOML: items beyond the fields are skipped, and behind a word stands an empty
array or an empty table. -/
def tomlDialect : Dialect where
  surplus := true
  payload
    | .array [] => true
    | .object [] => true
    | _ => false

/-- A record without unknown fields. -/
def record? (n : Dialect) (names : List String) : Tree → Option (Record Tree)
  | .object entries =>
    if entries.all fun e => names.contains e.1 then Record.ofEntries? names entries else none
  | .array items =>
    Record.ofItems? names (if n.surplus then items.take names.length else items)
  | _ => none

/-- A language, written as a string or as a table with one entry. -/
def keywordSet? (n : Dialect) : Tree → Option KeywordSet
  | .string s => Table.get? KeywordSet.words s
  | .object [(s, t)] => if n.payload t then Table.get? KeywordSet.words s else none
  | _ => none

/-- The naming settings. -/
def naming? (n : Dialect) (t : Tree) : Option NamingConfig := do
  let r ← record? n ["keywords", "extra_reserved"] t
  let keywords ← r.fieldOr? "keywords" KeywordSet.all (Tree.list? (keywordSet? n))
  let extraReserved ← r.fieldOr? "extra_reserved" [] (Tree.list? Tree.string?)
  return { keywords, extraReserved }

/-- The media settings. -/
def media? (n : Dialect) (t : Tree) : Option MediaConfig := do
  let r ← record? n ["preferred"] t
  let preferred ← r.fieldOr? "preferred" ["application/json"] (Tree.list? Tree.string?)
  return { preferred }

/-- All settings. -/
def ofTree? (n : Dialect) (t : Tree) : Option Config := do
  let r ← record? n ["naming", "media"] t
  let naming ← r.fieldOr? "naming" {} (naming? n)
  let media ← r.fieldOr? "media" {} (media? n)
  return { naming, media }

/-- The settings of a TOML text. -/
def ofToml? (text : String) : Option Config := do
  let root ← Toml.read? text
  ofTree? tomlDialect (.object (Toml.toEntries root))

/-- The settings given as a value. -/
def ofJson? (value : Json) : Option Config := ofTree? jsonDialect (Tree.ofJson value)

/-- Why there are no settings. -/
inductive Failure where
  /-- The file cannot be read. -/
  | unreadable
  /-- The text says no settings. -/
  | malformed
  deriving DecidableEq, Repr

/-- The settings of a file, given its text if it can be read. -/
def load? : Option String → Except Failure Config
  | none => .error .unreadable
  | some text =>
    match ofToml? text with
    | some config => .ok config
    | none => .error .malformed

/-- The settings as a value, all fields written. -/
def toJson (c : Config) : Json :=
  .object
    [("naming", .object
      [("keywords", .array (c.naming.keywords.map fun set => .string set.name)),
       ("extra_reserved", .array (c.naming.extraReserved.map .string))]),
     ("media", .object [("preferred", .array (c.media.preferred.map .string))])]

end Config

end ApiBinding
