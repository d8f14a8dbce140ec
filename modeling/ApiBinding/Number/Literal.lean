import ApiBinding.Number.Binary64

/-!
# Numbers of a document

A number is an integer of machine range or a double.  An integer literal that
fits 64 bits, signed or unsigned, is kept as an integer; every other literal is
a double.

The significand of a literal is read into 64 bits: digits are taken as long as
the value stays below `2^64`.  Integer digits beyond that only raise the power
of ten, fraction digits beyond that are dropped.  The double is the significand,
rounded, times the power of ten, rounded again; a magnitude beyond the finite
doubles is no number.

## Main definitions

* `Number` — an integer or a double.
* `Literal` — the parts of a written number.
* `Literal.value?` — its value, `none` when it is out of range.
-/

namespace ApiBinding

/-- A number of a document. -/
inductive Number where
  /-- An integer of 64 bits, signed or unsigned. -/
  | integer (value : Int)
  /-- Any other number. -/
  | real (value : Binary64)
  deriving DecidableEq, Repr, Inhabited

/-- Equality of numbers: an integer never equals a double, and the two zeros
among the doubles are equal. -/
def Number.same : Number → Number → Bool
  | .integer m, .integer n => m == n
  | .real x, .real y => x.same y
  | _, _ => false

/-- The parts of a written number, digits as their values. -/
structure Literal where
  negative : Bool
  whole : List Nat
  /-- The digits behind the point, if there is a point. -/
  fraction : Option (List Nat)
  /-- The sign and the digits of the exponent, if there is one. -/
  exponent : Option (Bool × List Nat)
  deriving Repr, Inhabited

namespace Literal

/-- The bound of an unsigned significand. -/
def significandBound : Nat := Nat.pow 2 64

/-- Append digits to a significand as long as it stays in bounds; what is left
is returned beside it. -/
def accumulate : Nat → List Nat → Nat × List Nat
  | n, [] => (n, [])
  | n, d :: rest =>
    if 10 * n + d < significandBound then accumulate (10 * n + d) rest else (n, d :: rest)

/-- The value of a digit sequence. -/
def digitsValue (ds : List Nat) : Nat := ds.foldl (fun n d => 10 * n + d) 0

/-- The significand and the power of ten it is to be multiplied by, before the
written exponent. -/
def significand (l : Literal) : Nat × Int :=
  let (whole, extra) := accumulate 0 l.whole
  match l.fraction with
  | none => (whole, extra.length)
  | some ds =>
    let (n, dropped) := accumulate whole ds
    (n, (extra.length : Int) - (ds.length - dropped.length : Nat))

/-- Whether the written exponent is beyond 32 bits. -/
def hugeExponent (ds : List Nat) : Bool := Nat.pow 2 31 ≤ digitsValue ds

/-- The double that the literal denotes, if it is finite. -/
def real? (l : Literal) : Option Binary64 :=
  let (n, k) := l.significand
  match l.exponent with
  | none => finish n k
  | some (down, ds) =>
    if hugeExponent ds then
      if n ≠ 0 ∧ ¬ down then none else some (.zero l.negative)
    else finish n (if down then k - digitsValue ds else k + digitsValue ds)
where
  /-- The rounded significand times a power of ten, with the sign. -/
  finish (n : Nat) (k : Int) : Option Binary64 :=
    ((Binary64.ofNat n).scale k).map (·.withSign l.negative)

/-- The value of a literal.  A minus sign before zero, and integers that do not
fit 64 bits, make a double. -/
def value? (l : Literal) : Option Number :=
  match l.fraction, l.exponent, accumulate 0 l.whole with
  | none, none, (n, []) =>
    if ¬ l.negative then some (.integer n)
    else if n = 0 ∨ Nat.pow 2 63 < n then some (.real ((Binary64.ofNat n).withSign true))
    else some (.integer (-n))
  | _, _, _ => l.real?.map .real

end Literal

end ApiBinding
