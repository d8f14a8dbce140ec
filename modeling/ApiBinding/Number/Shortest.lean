import ApiBinding.Number.Binary64

/-!
# The shortest decimal that reads back

Every double is written with the fewest significant digits that still single it
out: the decimal must lie in the interval of reals that round to the double.  Of
two such decimals with equally few digits the nearer one is taken, and an exact
tie goes to the even digit.

The search runs over the decimal grids with 1, 2, …, 17 significant digits.  On
each grid only the two neighbours of the double can be the answer, because the
interval is convex and contains the double.

## Main definitions

* `Decimal` — a natural number times a power of ten.
* `Binary64.admits` — the decimal lies in the rounding interval.
* `Binary64.shortest` — the decimal of the fewest digits.
-/

namespace ApiBinding

/-- The number `digits · 10^exponent`. -/
structure Decimal where
  digits : Nat
  exponent : Int
  deriving DecidableEq, Repr, Inhabited

namespace Decimal

/-- The number as a fraction. -/
def ratio (d : Decimal) : Nat × Nat := scaleFraction 10 d.digits 1 d.exponent

/-- The significant digits, without zeros at the end. -/
def significant (d : Decimal) : List Char :=
  ((Nat.toDigits 10 d.digits).reverse.dropWhile (· == '0')).reverse

/-- The power of ten of the first digit. -/
def leadingExponent (d : Decimal) : Int :=
  d.exponent + (Nat.toDigits 10 d.digits).length - 1

end Decimal

namespace Binary64

/-- The ends of the interval of magnitudes that round to a nonzero double,
counted in quarters of its last place.  Below a power of two the next double is
only half as far away. -/
def ends (x : Binary64) : Nat × Nat :=
  let below := if x.significand = Nat.pow 2 52 ∧ minExponent < x.exponent then 1 else 2
  (4 * x.significand - below, 4 * x.significand + 2)

/-- Whether a decimal lies between the ends; the ends belong to the interval of
an even significand. -/
def admits (x : Binary64) (d : Decimal) : Bool :=
  let (num, den) := d.ratio
  let (low, lowDen) := scaleFraction 2 x.ends.1 1 (x.exponent - 2)
  let (high, highDen) := scaleFraction 2 x.ends.2 1 (x.exponent - 2)
  if x.significand % 2 = 0 then
    low * den ≤ num * lowDen ∧ num * highDen ≤ high * den
  else
    low * den < num * lowDen ∧ num * highDen < high * den

/-- The greatest `k` with `10^k` at most the magnitude. -/
def floorLog10 (x : Binary64) : Int :=
  let (num, den) := x.ratio
  let k : Int := (Nat.toDigits 10 num).length - (Nat.toDigits 10 den).length
  let power := (Decimal.mk 1 k).ratio
  if power.1 * den ≤ num * power.2 then k else k - 1

/-- The decimal with `n` significant digits that lies in the rounding interval,
the nearer one if both neighbours do. -/
def onGrid (x : Binary64) (n : Nat) : Option Decimal :=
  let k := x.floorLog10 - n + 1
  let (num, den) := x.ratio
  let unit := (Decimal.mk 1 k).ratio
  let top := num * unit.2
  let bottom := den * unit.1
  let lower : Decimal := ⟨top / bottom, k⟩
  let upper : Decimal := ⟨top / bottom + 1, k⟩
  let rest := top % bottom
  match x.admits lower, x.admits upper with
  | true, true =>
    if 2 * rest < bottom ∨ (2 * rest = bottom ∧ lower.digits % 2 = 0) then some lower
    else some upper
  | true, false => some lower
  | false, true => some upper
  | false, false => none

/-- The magnitude of a nonzero double with the fewest digits that read back.
Seventeen digits always do. -/
def shortest (x : Binary64) : Decimal :=
  ((List.range 17).findSome? fun n => x.onGrid (n + 1)).getD ⟨0, 0⟩

end Binary64

end ApiBinding
