import ApiBinding.Json.Basic
import ApiBinding.Number.Shortest

/-!
# Writing JSON

Values are written without blanks.  In a string only the quote, the backslash
and the control characters below U+0020 are escaped.  A double is written with
the fewest digits that read back, and always so that it reads back as a double:
in positional form with a point when its first digit stands for `10^k` with
`-5 ≤ k ≤ 15`, otherwise with one digit before the point and an exponent that
shows its sign.

## Main definitions

* `Binary64.text`, `Number.text` — numbers.
* `Json.quote` — a string with its quotes.
* `Json.render` — a value.
-/

namespace ApiBinding

/-! ### Numbers -/

/-- The range of leading exponents that are written in positional form. -/
def positional (k : Int) : Bool := -5 ≤ k && k ≤ 15

/-- Digits with a point: the first of them stands for `10^k`. -/
def positionalText (digits : List Char) (k : Int) : List Char :=
  if k < 0 then ['0', '.'] ++ List.replicate (-k - 1).toNat '0' ++ digits
  else
    let whole := k.toNat + 1
    if digits.length ≤ whole then
      digits ++ List.replicate (whole - digits.length) '0' ++ ['.', '0']
    else digits.take whole ++ ['.'] ++ digits.drop whole

/-- One digit, a point if more follow, and the exponent with its sign. -/
def scientificText (digits : List Char) (k : Int) : List Char :=
  let mantissa := match digits with
    | [] => []
    | [d] => [d]
    | d :: more => d :: '.' :: more
  mantissa ++ ['e', if k < 0 then '-' else '+'] ++ Nat.toDigits 10 k.natAbs

/-- The text of a double. -/
def Binary64.text (x : Binary64) : String :=
  let sign := if x.negative then ['-'] else []
  if x.isZero then String.ofList (sign ++ ['0', '.', '0'])
  else
    let d := x.shortest
    let k := d.leadingExponent
    String.ofList (sign ++
      if positional k then positionalText d.significant k else scientificText d.significant k)

/-- The text of a number. -/
def Number.text : Number → String
  | .integer n => toString n
  | .real x => x.text

namespace Json

/-! ### Strings -/

/-- A lower-case hexadecimal digit. -/
def hexChar (n : Nat) : Char := Nat.digitChar n

/-- A character as it stands in a string. -/
def escapeChar (c : Char) : List Char :=
  if c = '"' then ['\\', '"']
  else if c = '\\' then ['\\', '\\']
  else if c = '\x08' then ['\\', 'b']
  else if c = '\x0c' then ['\\', 'f']
  else if c = '\n' then ['\\', 'n']
  else if c = '\r' then ['\\', 'r']
  else if c = '\t' then ['\\', 't']
  else if c.toNat < 0x20 then
    ['\\', 'u', '0', '0', hexChar (c.toNat / 16), hexChar (c.toNat % 16)]
  else [c]

/-- A string with its quotes. -/
def quote (s : String) : String :=
  String.ofList ('"' :: s.toList.flatMap escapeChar ++ ['"'])

/-! ### Values -/

mutual

/-- The text of a value. -/
def render : Json → String
  | .null => "null"
  | .bool true => "true"
  | .bool false => "false"
  | .number n => n.text
  | .string s => quote s
  | .array items => "[" ++ ",".intercalate (renderItems items) ++ "]"
  | .object entries => "\x7b" ++ ",".intercalate (renderEntries entries) ++ "\x7d"

/-- The texts of the items. -/
def renderItems : List Json → List String
  | [] => []
  | v :: rest => render v :: renderItems rest

/-- The texts of the entries. -/
def renderEntries : List (String × Json) → List String
  | [] => []
  | (k, v) :: rest => (quote k ++ ":" ++ render v) :: renderEntries rest

end

/-- A value as the text of a name or of a tag: a string stands for itself, any
other value for its JSON text. -/
def label : Json → String
  | .string s => s
  | v => v.render

end Json

end ApiBinding
