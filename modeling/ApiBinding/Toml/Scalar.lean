import ApiBinding.Json.Reader

/-!
# Numbers, dates and truth values in TOML

No setting is one of these, so only their extent matters: where such a value ends
and whether it is one at all.  Digits may be set apart by single underscores;
integers have 64 bits; a decimal number must not exceed the doubles; dates and
times must exist.

## Main definitions

* `Toml.skipNumber?` — the text behind a number.
* `Toml.skipMoment?` — the text behind a date, a time, or both.
* `Toml.skipScalar?` — the text behind any of these values.
-/

namespace ApiBinding

namespace Toml

/-! ### Digits -/

/-- Digits at the front of a text, single underscores between them dropped, and
what follows; fails at an underscore without a digit behind it. -/
def moreDigits? (isDigit : Char → Bool) : List Char → Option (List Char × List Char)
  | '_' :: c :: rest =>
    if isDigit c then (moreDigits? isDigit rest).map fun (ds, rest) => (c :: ds, rest) else none
  | ['_'] => none
  | c :: rest =>
    if isDigit c then (moreDigits? isDigit rest).map fun (ds, rest) => (c :: ds, rest)
    else some ([], c :: rest)
  | [] => some ([], [])

/-- At least one digit, the first of them not behind an underscore. -/
def digits? (isDigit : Char → Bool) : List Char → Option (List Char × List Char)
  | c :: rest => if isDigit c then moreDigits? isDigit (c :: rest) else none
  | [] => none

/-- The number that digits of a base stand for. -/
def digitsValue (base : Nat) (ds : List Char) : Nat :=
  ds.foldl (fun n d => base * n + (Tree.hexDigit? d).getD 0) 0

/-- A sign and what follows; no sign counts as plus. -/
def sign : List Char → Bool × List Char
  | '-' :: rest => (true, rest)
  | '+' :: rest => (false, rest)
  | cs => (false, cs)

/-! ### Numbers -/

/-- The text behind an integer of a base, behind its mark; it has 63 bits. -/
def skipBased? (base : Nat) (cs : List Char) : Option (List Char) := do
  let (ds, rest) ← digits? (fun c => (Tree.hexDigit? c).any (· < base)) cs
  if digitsValue base ds < Nat.pow 2 63 then some rest else none

/-- The whole part of a decimal number: a single zero, or digits that do not begin
with one. -/
def wholePart? : List Char → Option (List Char × List Char)
  | '0' :: rest => some (['0'], rest)
  | cs => digits? Char.isDigit cs

/-- The digits behind the point, if there is a point. -/
def fractionPart? : List Char → Option (Option (List Char) × List Char)
  | '.' :: rest => (digits? Char.isDigit rest).map fun (ds, rest) => (some ds, rest)
  | cs => some (none, cs)

/-- The value of the exponent, if there is one. -/
def exponentPart? : List Char → Option (Option Int × List Char)
  | c :: cs =>
    if c = 'e' ∨ c = 'E' then do
      let (down, body) := sign cs
      let (ds, rest) ← digits? Char.isDigit body
      let n := digitsValue 10 ds
      return (some (if down then -(n : Int) else n), rest)
    else some (none, c :: cs)
  | [] => some (none, [])

/-- Whether digits times a power of ten round to a finite double. -/
def roundsFinite (ds : List Char) (exponent : Int) : Bool :=
  let (num, den) := scaleFraction 10 (digitsValue 10 ds) 1 exponent
  (Binary64.ofRatio false num den).isSome

/-- The same for an exponent of any size.  A number whose first digit stands for
less than `10^308` is finite, and one whose first digit stands for more is not. -/
def finite (ds : List Char) (exponent : Int) : Bool :=
  let kept := ds.dropWhile (· == '0')
  let places := kept.length + exponent
  kept.isEmpty || places < 309 || (places = 309 && roundsFinite kept exponent)

/-- The text behind a decimal number.  Only positive ones must be finite. -/
def skipDecimal? (cs : List Char) : Option (List Char) := do
  let (negative, body) := sign cs
  let (whole, rest) ← wholePart? body
  let (fraction, rest) ← fractionPart? rest
  let (exponent, rest) ← exponentPart? rest
  match fraction, exponent with
  | none, none =>
    let n := digitsValue 10 whole
    if n < Nat.pow 2 63 ∨ (negative ∧ n = Nat.pow 2 63) then some rest else none
  | _, _ =>
    let behind := fraction.getD []
    if negative ∨ finite (whole ++ behind) (exponent.getD 0 - behind.length) then some rest
    else none

/-- The text behind a fixed word. -/
def skipWord? (word : String) (cs : List Char) : Option (List Char) :=
  if word.toList.isPrefixOf cs then some (cs.drop word.length) else none

/-- The text behind an infinity or a number that is none, its sign optional. -/
def skipSpecial? (cs : List Char) : Option (List Char) :=
  let body := (sign cs).2
  (skipWord? "inf" body).or (skipWord? "nan" body)

/-- The text behind a number. -/
def skipNumber? : List Char → Option (List Char)
  | '0' :: 'x' :: rest => skipBased? 16 rest
  | '0' :: 'o' :: rest => skipBased? 8 rest
  | '0' :: 'b' :: rest => skipBased? 2 rest
  | cs => (skipSpecial? cs).or (skipDecimal? cs)

/-! ### Dates and times -/

/-- A number of two digits that is not out of a range. -/
def twoDigits? (least greatest : Nat) : List Char → Option (Nat × List Char)
  | a :: b :: rest =>
    let n := digitsValue 10 [a, b]
    if a.isDigit ∧ b.isDigit ∧ least ≤ n ∧ n ≤ greatest then some (n, rest) else none
  | _ => none

/-- The text behind a given character. -/
def skipChar? (c : Char) : List Char → Option (List Char)
  | d :: rest => if d = c then some rest else none
  | [] => none

/-- How many days a month has. -/
def daysOf (year month : Nat) : Nat :=
  let leap := year % 4 = 0 ∧ (year % 100 ≠ 0 ∨ year % 400 = 0)
  if month = 2 then if leap then 29 else 28
  else if month ∈ [4, 6, 9, 11] then 30
  else 31

/-- The text behind a date. -/
def skipDate? (cs : List Char) : Option (List Char) := do
  let (century, rest) ← twoDigits? 0 99 cs
  let (year, rest) ← twoDigits? 0 99 rest
  let (month, rest) ← twoDigits? 1 12 (← skipChar? '-' rest)
  let (_, rest) ← twoDigits? 1 (daysOf (100 * century + year) month) (← skipChar? '-' rest)
  return rest

/-- The text behind a fraction of a second, if there is one. -/
def skipSubsecond : List Char → List Char
  | '.' :: c :: rest => if c.isDigit then rest.dropWhile Char.isDigit else '.' :: c :: rest
  | cs => cs

/-- The text behind a time; a minute may have a leap second. -/
def skipTime? (cs : List Char) : Option (List Char) := do
  let (_, rest) ← twoDigits? 0 23 cs
  let (_, rest) ← twoDigits? 0 59 (← skipChar? ':' rest)
  let (_, rest) ← twoDigits? 0 60 (← skipChar? ':' rest)
  return skipSubsecond rest

/-- The text behind the offset of a time. -/
def skipOffset? : List Char → Option (List Char)
  | c :: rest =>
    if c = 'Z' ∨ c = 'z' then some rest
    else if c = '+' ∨ c = '-' then do
      let (_, rest) ← twoDigits? 0 23 rest
      let (_, rest) ← twoDigits? 0 59 (← skipChar? ':' rest)
      return rest
    else none
  | [] => none

/-- The text behind the time that goes with a date, and behind its offset. -/
def skipTimeOfDay? : List Char → Option (List Char)
  | c :: rest =>
    if c = 'T' ∨ c = 't' ∨ c = ' ' then
      (skipTime? rest).map fun rest => (skipOffset? rest).getD rest
    else none
  | [] => none

/-- The text behind a date, a time, or both. -/
def skipMoment? (cs : List Char) : Option (List Char) :=
  match skipDate? cs with
  | some rest => some ((skipTimeOfDay? rest).getD rest)
  | none => skipTime? cs

/-! ### Any of these -/

/-- The text behind a truth value, a number, a date or a time. -/
def skipScalar? (cs : List Char) : Option (List Char) :=
  (skipMoment? cs).or
    ((skipNumber? cs).or ((skipWord? "true" cs).or (skipWord? "false" cs)))

end Toml

end ApiBinding
