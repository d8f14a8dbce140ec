/-!
# Keys of responses

A response is declared for one status code, for a class of codes, or for all
codes that nothing else covers.

## Main definitions

* `StatusKey` — what a response is declared for.
* `StatusKey.ofText?`, `StatusKey.text` — its written form.
-/

namespace ApiBinding

/-- What a response is declared for. -/
inductive StatusKey where
  /-- One status code. -/
  | code (value : Nat)
  /-- All codes with this first digit, as far as no entry of their own exists. -/
  | range (hundreds : Nat)
  /-- All other codes. -/
  | default
  deriving DecidableEq, Repr, Inhabited

namespace StatusKey

/-- The value of a digit. -/
def digitValue (c : Char) : Nat := c.toNat - '0'.toNat

/-- An `x` in either case. -/
def isX (c : Char) : Bool := c == 'X' || c == 'x'

/-- The key written as `default`, as three digits, or as a digit and two `X`; the
first digit is one of 1 to 5. -/
def ofText? (text : String) : Option StatusKey :=
  if text = "default" then some .default
  else
    match text.toList with
    | [a, b, c] =>
      if '1' ≤ a ∧ a ≤ '5' then
        if isX b ∧ isX c then some (.range (digitValue a))
        else if b.isDigit ∧ c.isDigit then
          some (.code (100 * digitValue a + 10 * digitValue b + digitValue c))
        else none
      else none
    | _ => none

/-- The canonical text of a key. -/
def text : StatusKey → String
  | .code value => toString value
  | .range hundreds => toString hundreds ++ "XX"
  | .default => "default"

/-- What is said about a text that is no key. -/
def invalidMessage (text : String) : String := s!"invalid response status `{text}`"

end StatusKey

end ApiBinding
