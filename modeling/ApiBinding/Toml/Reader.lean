import ApiBinding.Toml.Basic
import ApiBinding.Toml.Scalar

/-!
# Reading TOML

A text is a sequence of lines: headers, keys with values, comments.  Strings come
in four forms; arrays may run over several lines.  Arrays and inline tables do not
nest deeper, and keys do not have more names, than `Toml.maxDepth`.

## Main definitions

* `Toml.readText`, `Toml.readKey`, `Toml.readValue` — strings, keys and values.
* `Toml.read?` — the root table of a text.
-/

namespace ApiBinding

namespace Toml

/-! ### Characters -/

/-- A blank within a line. -/
def isBlank (c : Char) : Bool := c == ' ' || c == '\t'

/-- The text behind blanks. -/
def skipBlanks (cs : List Char) : List Char := cs.dropWhile isBlank

/-- A character that a line may hold, in comments and strings. -/
def isPrintable (c : Char) : Bool := c == '\t' || (' ' ≤ c && c != '\x7f')

/-- A character of a bare key. -/
def isBareKey (c : Char) : Bool := c.isAlphanum || c == '_' || c == '-'

/-- The text behind a line end, if one stands here. -/
def lineEnd? : List Char → Option (List Char)
  | '\n' :: rest => some rest
  | '\r' :: '\n' :: rest => some rest
  | _ => none

/-- The text behind an optional comment; the line end stays. -/
def skipComment : List Char → List Char
  | '#' :: rest => rest.dropWhile isPrintable
  | cs => cs

/-- The text behind the end of a line that holds nothing but a comment from here
on. -/
def finishLine? (cs : List Char) : Option (List Char) :=
  match skipComment (skipBlanks cs) with
  | [] => some []
  | rest => lineEnd? rest

/-- The text behind blanks, comments and line ends. -/
def skipLines : Nat → List Char → List Char
  | 0, cs => cs
  | fuel + 1, cs =>
    let rest := skipComment (skipBlanks cs)
    match lineEnd? rest with
    | some rest => skipLines fuel rest
    | none => rest

/-! ### Strings -/

/-- The value of hexadecimal digits. -/
def hexValue? (ds : List Char) : Option Nat :=
  ds.foldlM (fun n d => do return 16 * n + (← Tree.hexDigit? d)) 0

/-- The character of a code point, if there is one. -/
def charOf? (n : Nat) : Option Char := if n.isValidChar then some (Char.ofNat n) else none

/-- An escaped character behind its backslash, and what follows. -/
def readEscape : List Char → Option (Char × List Char)
  | 'u' :: rest => do
    if rest.length < 4 then none
    else return (← charOf? (← hexValue? (rest.take 4)), rest.drop 4)
  | 'U' :: rest => do
    if rest.length < 8 then none
    else return (← charOf? (← hexValue? (rest.take 8)), rest.drop 8)
  | '/' :: _ => none
  | c :: rest => do return (← Tree.simpleEscape? c, rest)
  | [] => none

/-- A string in double quotes, behind the opening quote. -/
def readBasic : Nat → List Char → Option (List Char × List Char)
  | 0, _ => none
  | _ + 1, '"' :: rest => some ([], rest)
  | fuel + 1, '\\' :: rest => do
    let (c, rest) ← readEscape rest
    let (cs, rest) ← readBasic fuel rest
    return (c :: cs, rest)
  | fuel + 1, c :: rest =>
    if isPrintable c then do
      let (cs, rest) ← readBasic fuel rest
      return (c :: cs, rest)
    else none
  | _ + 1, [] => none

/-- A string in single quotes, behind the opening quote. -/
def readLiteral : List Char → Option (List Char × List Char)
  | '\x27' :: rest => some ([], rest)
  | c :: rest =>
    if isPrintable c then do
      let (cs, rest) ← readLiteral rest
      return (c :: cs, rest)
    else none
  | [] => none

/-- The closing quotes of a string over several lines: three, with at most two
more before them that belong to the string. -/
def closing? (quote : Char) (cs : List Char) : Option (List Char × List Char) :=
  let quotes := cs.takeWhile (· == quote)
  if quotes.length < 3 then none
  else
    let n := min quotes.length 5
    some (List.replicate (n - 3) quote, cs.drop n)

/-- The text behind blanks and line ends, for a line that ends in a backslash. -/
def skipBreak : List Char → List Char
  | '\n' :: rest => skipBreak rest
  | '\r' :: '\n' :: rest => skipBreak rest
  | c :: rest => if isBlank c then skipBreak rest else c :: rest
  | [] => []

/-- A string over several lines, behind the opening quotes.  Line ends are read as
line feeds; between double quotes a backslash at the end of a line joins it to the
next word. -/
def readMultiline (quote : Char) : Nat → List Char → Option (List Char × List Char)
  | 0, _ => none
  | fuel + 1, cs =>
    match closing? quote cs with
    | some done => some done
    | none =>
      match lineEnd? cs with
      | some rest => do
        let (cs, rest) ← readMultiline quote fuel rest
        return ('\n' :: cs, rest)
      | none =>
        match cs with
        | [] => none
        | c :: rest =>
          if c = '\\' ∧ quote = '"' then
            if (lineEnd? (skipBlanks rest)).isSome then
              readMultiline quote fuel (skipBreak rest)
            else do
              let (c, rest) ← readEscape rest
              let (cs, rest) ← readMultiline quote fuel rest
              return (c :: cs, rest)
          else if isPrintable c then do
            let (cs, rest) ← readMultiline quote fuel rest
            return (c :: cs, rest)
          else none

/-- The text behind the line end that directly follows opening quotes. -/
def dropFirstLineEnd (cs : List Char) : List Char := (lineEnd? cs).getD cs

/-- A string in one of the four forms, and what follows. -/
def readText (cs : List Char) : Option (String × List Char) :=
  let finish (r : Option (List Char × List Char)) : Option (String × List Char) :=
    r.map fun (text, rest) => (String.ofList text, rest)
  match cs with
  | '"' :: '"' :: '"' :: rest =>
    finish (readMultiline '"' (rest.length + 1) (dropFirstLineEnd rest))
  | '\x27' :: '\x27' :: '\x27' :: rest =>
    finish (readMultiline '\x27' (rest.length + 1) (dropFirstLineEnd rest))
  | '"' :: rest => finish (readBasic (rest.length + 1) rest)
  | '\x27' :: rest => finish (readLiteral rest)
  | _ => none

/-! ### Keys -/

/-- One name of a key: bare or a string on one line. -/
def readName (cs : List Char) : Option (String × List Char) :=
  let finish (r : Option (List Char × List Char)) : Option (String × List Char) :=
    r.map fun (text, rest) => (String.ofList text, rest)
  match cs with
  | '"' :: rest => finish (readBasic (rest.length + 1) rest)
  | '\x27' :: rest => finish (readLiteral rest)
  | _ =>
    let name := cs.takeWhile isBareKey
    if name.isEmpty then none else some (String.ofList name, cs.dropWhile isBareKey)

/-- How deep arrays and inline tables may nest, and how many names a key may have. -/
def maxDepth : Nat := 79

/-- Names with points between them, blanks around each name skipped. -/
def readNames : Nat → List Char → Option (List String × List Char)
  | 0, _ => none
  | fuel + 1, cs => do
    let (name, rest) ← readName (skipBlanks cs)
    match skipBlanks rest with
    | '.' :: rest => do
      let (names, rest) ← readNames fuel rest
      return (name :: names, rest)
    | rest => return ([name], rest)

/-- A key, and what follows. -/
def readKey (cs : List Char) : Option (List String × List Char) := do
  let (names, rest) ← readNames (cs.length + 1) cs
  if names.length ≤ maxDepth then return (names, rest) else none

/-! ### Values -/

mutual

/-- A value, and what follows.  The first argument bounds the number of steps, the
second says how many more brackets and braces may be open at a time. -/
def readValue : Nat → Nat → List Char → Option (Toml × List Char)
  | 0, _, _ => none
  | fuel + 1, room, cs =>
    match cs, room with
    | '[' :: _, 0 => none
    | '[' :: rest, room + 1 => do
      let (items, rest) ← readItems fuel room rest
      return (.array items, rest)
    | '\x7b' :: _, 0 => none
    | '\x7b' :: rest, room + 1 =>
      match skipBlanks rest with
      | '\x7d' :: rest => some (.table .inline [], rest)
      | rest => do
        let (entries, rest) ← readEntries fuel room [] rest
        return (.table .inline entries, rest)
    | cs, _ =>
      match readText cs with
      | some (s, rest) => some (.string s, rest)
      | none => (skipScalar? cs).map fun rest => (.scalar, rest)

/-- The items of an array up to its closing bracket; a comma may stand before
it. -/
def readItems : Nat → Nat → List Char → Option (List Toml × List Char)
  | 0, _, _ => none
  | fuel + 1, room, cs =>
    match skipLines (cs.length + 1) cs with
    | ']' :: rest => some ([], rest)
    | start => do
      let (item, rest) ← readValue fuel room start
      match skipLines (rest.length + 1) rest with
      | ',' :: rest => do
        let (items, rest) ← readItems fuel room rest
        return (item :: items, rest)
      | ']' :: rest => return ([item], rest)
      | _ => none

/-- The entries of an inline table up to its closing brace, added to those read
before. -/
def readEntries : Nat → Nat → Entries → List Char → Option (Entries × List Char)
  | 0, _, _, _ => none
  | fuel + 1, room, es, cs => do
    let (key, rest) ← readKey cs
    match rest with
    | '=' :: rest => do
      let (value, rest) ← readValue fuel room (skipBlanks rest)
      let es ← assign value key es
      match skipBlanks rest with
      | ',' :: rest => readEntries fuel room es rest
      | '\x7d' :: rest => return (es, rest)
      | _ => none
    | _ => none

end

/-! ### Lines -/

/-- Read line by line.  `path` is the header that the keys of the current line
belong to, `root` what has been read so far. -/
def readLines : Nat → List String → Entries → List Char → Option Entries
  | 0, _, _, _ => none
  | fuel + 1, path, root, cs =>
    match skipBlanks cs with
    | [] => some root
    | '[' :: '[' :: rest => do
      let (key, rest) ← readKey rest
      let rest ← skipWord? "]]" rest
      let root ← atPath (openElement (key.getLast?.getD "")) key.dropLast root
      readLines fuel key root (← finishLine? rest)
    | '[' :: rest => do
      let (key, rest) ← readKey rest
      let rest ← skipChar? ']' rest
      let root ← atPath (openTable (key.getLast?.getD "")) key.dropLast root
      readLines fuel key root (← finishLine? rest)
    | start =>
      match finishLine? start with
      | some rest => if rest.isEmpty then some root else readLines fuel path root rest
      | none => do
        let (key, rest) ← readKey start
        match rest with
        | '=' :: rest => do
          let (value, rest) ← readValue (rest.length + 1) maxDepth (skipBlanks rest)
          let root ← atPath (assign value key) path root
          readLines fuel path root (← finishLine? rest)
        | _ => none

/-- The root table of a text; a byte order mark before it is skipped. -/
def read? (text : String) : Option Entries :=
  let cs := match text.toList with
    | '\ufeff' :: rest => rest
    | cs => cs
  readLines (cs.length + 1) [] [] cs

end Toml

end ApiBinding
