import ApiBinding.Json.Tree

/-!
# Reading JSON text

The grammar is the strict one: four blank characters, no comments, no comma
before a closing bracket, double quotes, no raw control character in a string.
One reader serves those who want a part of the text and those who skip it, so it
fails on a breach of the grammar only; a part that has the right form and still
denotes no value becomes `Tree.invalid`.

## Main definitions

* `Tree.read?` — the tree of a text that holds one value and nothing else.
* `Escaped` — a character of a string, or one half of a surrogate pair.
* `maxDepth` — how many arrays and objects may be open at once.
-/

namespace ApiBinding

namespace Tree

/-- The most arrays and objects that may be open at once. -/
def maxDepth : Nat := 127

/-- The four characters that may stand between tokens. -/
def isBlank (c : Char) : Bool := c == ' ' || c == '\n' || c == '\t' || c == '\r'

/-- The text behind leading blanks. -/
def skipBlanks (cs : List Char) : List Char := cs.dropWhile isBlank

/-! ### Strings -/

/-- What one place of a string holds: a character, or half a surrogate pair. -/
inductive Escaped where
  | char (c : Char)
  | unit (u : Nat)
  deriving Repr

/-- The value of a hexadecimal digit. -/
def hexDigit? (c : Char) : Option Nat :=
  if '0' ≤ c ∧ c ≤ '9' then some (c.toNat - '0'.toNat)
  else if 'a' ≤ c ∧ c ≤ 'f' then some (c.toNat - 'a'.toNat + 10)
  else if 'A' ≤ c ∧ c ≤ 'F' then some (c.toNat - 'A'.toNat + 10)
  else none

/-- The value of four hexadecimal digits. -/
def hexUnit? (a b c d : Char) : Option Nat := do
  return ((← hexDigit? a) * 16 + (← hexDigit? b)) * 256 + (← hexDigit? c) * 16 + (← hexDigit? d)

/-- A unit of a surrogate pair. -/
def isSurrogate (u : Nat) : Bool := 0xD800 ≤ u && u ≤ 0xDFFF

/-- What an escape of four hexadecimal digits stands for. -/
def Escaped.ofUnit (u : Nat) : Escaped :=
  if isSurrogate u then .unit u else .char (Char.ofNat u)

/-- The character behind a backslash, for the escapes of one letter. -/
def simpleEscape? : Char → Option Char
  | '"' => some '"'
  | '\\' => some '\\'
  | '/' => some '/'
  | 'b' => some '\x08'
  | 'f' => some '\x0c'
  | 'n' => some '\n'
  | 'r' => some '\r'
  | 't' => some '\t'
  | _ => none

/-- The places of a string up to the closing quote, and the text behind it. -/
def readPlaces : List Char → Option (List Escaped × List Char)
  | '"' :: rest => some ([], rest)
  | '\\' :: 'u' :: a :: b :: c :: d :: rest => do
    let u ← hexUnit? a b c d
    let (places, more) ← readPlaces rest
    return (.ofUnit u :: places, more)
  | '\\' :: e :: rest => do
    let c ← simpleEscape? e
    let (places, more) ← readPlaces rest
    return (.char c :: places, more)
  | c :: rest =>
    if c.toNat < 0x20 ∨ c = '\\' then none
    else do
      let (places, more) ← readPlaces rest
      return (.char c :: places, more)
  | [] => none

/-- The characters that the places make, surrogate halves in pairs; `none` when
a half stands alone. -/
def joinPlaces : List Escaped → Option (List Char)
  | [] => some []
  | .char c :: rest => (joinPlaces rest).map (c :: ·)
  | .unit high :: .unit low :: rest =>
    if high < 0xDC00 ∧ 0xDC00 ≤ low then
      (joinPlaces rest).map
        (Char.ofNat (0x10000 + (high - 0xD800) * 0x400 + (low - 0xDC00)) :: ·)
    else none
  | .unit _ :: _ => none

/-- A string behind its opening quote: its text, if it has one, and what
follows. -/
def readString (cs : List Char) : Option (Option String × List Char) := do
  let (places, rest) ← readPlaces cs
  return ((joinPlaces places).map String.ofList, rest)

/-! ### Numbers -/

/-- The value of a decimal digit. -/
def digit (c : Char) : Nat := c.toNat - '0'.toNat

/-- The digits at the front of a text, and what follows. -/
def readDigits (cs : List Char) : List Nat × List Char :=
  ((cs.takeWhile Char.isDigit).map digit, cs.dropWhile Char.isDigit)

/-- The integer part: a single zero, or digits that do not begin with one. -/
def readWhole (cs : List Char) : Option (List Nat × List Char) :=
  match readDigits cs with
  | ([], _) => none
  | (0 :: _ :: _, _) => none
  | parts => some parts

/-- A point with digits behind it, if there is a point. -/
def readFraction : List Char → Option (Option (List Nat) × List Char)
  | '.' :: cs =>
    match readDigits cs with
    | ([], _) => none
    | (ds, rest) => some (some ds, rest)
  | cs => some (none, cs)

/-- An exponent with an optional sign, if there is one. -/
def readExponent : List Char → Option (Option (Bool × List Nat) × List Char)
  | c :: cs =>
    if c = 'e' ∨ c = 'E' then
      let (down, body) := match cs with
        | '+' :: body => (false, body)
        | '-' :: body => (true, body)
        | body => (false, body)
      match readDigits body with
      | ([], _) => none
      | (ds, rest) => some (some (down, ds), rest)
    else some (none, c :: cs)
  | [] => some (none, [])

/-- A number and what follows. -/
def readLiteral (cs : List Char) : Option (Literal × List Char) := do
  let (negative, body) := match cs with
    | '-' :: body => (true, body)
    | body => (false, body)
  let (whole, rest) ← readWhole body
  let (fraction, rest) ← readFraction rest
  let (exponent, rest) ← readExponent rest
  return (⟨negative, whole, fraction, exponent⟩, rest)

/-! ### Values -/

/-- A fixed word and the text behind it. -/
def readWord (word : String) (value : Tree) (cs : List Char) : Option (Tree × List Char) :=
  let letters := word.toList
  if letters.isPrefixOf cs then some (value, cs.drop letters.length) else none

/-- A container, unless it is nested too deeply or a key of it is no string. -/
def contained (depth : Nat) (value : Option Tree) : Tree :=
  if maxDepth ≤ depth then .invalid else value.getD .invalid

/-- Put an entry before others; no table has a key that is no string. -/
def addEntry (key : Option String) (value : Tree) (rest : Option (List (String × Tree))) :
    Option (List (String × Tree)) := do
  return (← key, value) :: (← rest)

mutual

/-- A value at the front of a text, inside `depth` open containers, and what
follows.  The first argument bounds the number of steps. -/
def readValue : Nat → Nat → List Char → Option (Tree × List Char)
  | 0, _, _ => none
  | fuel + 1, depth, cs =>
    match skipBlanks cs with
    | 'n' :: rest => readWord "ull" .null rest
    | 't' :: rest => readWord "rue" (.bool true) rest
    | 'f' :: rest => readWord "alse" (.bool false) rest
    | '"' :: rest => do
      let (text, rest) ← readString rest
      return ((text.map .string).getD .invalid, rest)
    | '[' :: rest =>
      match skipBlanks rest with
      | ']' :: rest => some (contained depth (some (.array [])), rest)
      | rest => do
        let (items, rest) ← readItems fuel (depth + 1) rest
        return (contained depth (some (.array items)), rest)
    | '\x7b' :: rest =>
      match skipBlanks rest with
      | '\x7d' :: rest => some (contained depth (some (.object [])), rest)
      | rest => do
        let (entries, rest) ← readEntries fuel (depth + 1) rest
        return (contained depth (entries.map .object), rest)
    | rest => do
      let (literal, rest) ← readLiteral rest
      return ((literal.value?.map .number).getD .invalid, rest)

/-- The items of an array up to its closing bracket. -/
def readItems : Nat → Nat → List Char → Option (List Tree × List Char)
  | 0, _, _ => none
  | fuel + 1, depth, cs => do
    let (item, rest) ← readValue fuel depth cs
    match skipBlanks rest with
    | ']' :: rest => return ([item], rest)
    | ',' :: rest =>
      let (items, rest) ← readItems fuel depth rest
      return (item :: items, rest)
    | _ => none

/-- The entries of an object up to its closing bracket; no table if a key is no
string. -/
def readEntries : Nat → Nat → List Char → Option (Option (List (String × Tree)) × List Char)
  | 0, _, _ => none
  | fuel + 1, depth, cs =>
    match skipBlanks cs with
    | '"' :: rest => do
      let (key, rest) ← readString rest
      match skipBlanks rest with
      | ':' :: rest =>
        let (value, rest) ← readValue fuel depth rest
        match skipBlanks rest with
        | '\x7d' :: rest => return (addEntry key value (some []), rest)
        | ',' :: rest =>
          let (entries, rest) ← readEntries fuel depth rest
          return (addEntry key value entries, rest)
        | _ => none
      | _ => none
    | _ => none

end

/-- The tree of a text that holds one value with blanks around it.  A step reads
at least one character, so the length of the text bounds their number. -/
def read? (text : String) : Option Tree :=
  let cs := text.toList
  match readValue (2 * cs.length + 2) 0 cs with
  | some (tree, rest) => if (skipBlanks rest).isEmpty then some tree else none
  | none => none

end Tree

end ApiBinding
