/-!
# Double-precision numbers, exactly

A finite double is a sign, a significand and a power of two.  All arithmetic on
them here is exact arithmetic on natural numbers followed by one rounding, to
the nearest double with ties to the even significand, so nothing depends on the
machine's floating-point unit.

## Main definitions

* `Binary64` — the finite doubles, with the two zeros kept apart.
* `Binary64.ofRatio` — the double nearest to a fraction, if it is finite.
* `Binary64.scale` — a double multiplied by a power of ten, rounded once per
  factor.
* `Binary64.same` — equality of values: the two zeros are equal.
-/

namespace ApiBinding

/-- `num / den · base^e` as a fraction of natural numbers. -/
def scaleFraction (base num den : Nat) (e : Int) : Nat × Nat :=
  if 0 ≤ e then (num * Nat.pow base e.toNat, den) else (num, den * Nat.pow base (-e).toNat)

/-- A finite double: `(-1)^negative · significand · 2^exponent`.  A significand
is below `2^53`, and below `2^52` only at the least exponent, `-1074`. -/
structure Binary64 where
  negative : Bool
  significand : Nat
  exponent : Int
  deriving DecidableEq, Repr, Inhabited

namespace Binary64

/-- The least exponent of a double. -/
def minExponent : Int := -1074

/-- The greatest exponent of a finite double. -/
def maxExponent : Int := 971

/-- The zero of the given sign. -/
def zero (negative : Bool) : Binary64 := ⟨negative, 0, minExponent⟩

/-- Whether the number is one of the two zeros. -/
def isZero (x : Binary64) : Bool := x.significand == 0

/-- The same magnitude with a given sign. -/
def withSign (negative : Bool) (x : Binary64) : Binary64 := { x with negative := negative }

/-- Two doubles denote the same number: the zeros are equal whatever their
signs, all others only to themselves. -/
def same (x y : Binary64) : Bool :=
  x.significand == y.significand && x.exponent == y.exponent &&
    (x.negative == y.negative || x.isZero)

/-! ### Rounding a fraction -/

/-- The quotient of two natural numbers, rounded to the nearest, a tie to the
even neighbour. -/
def roundHalfEven (num den : Nat) : Nat :=
  let q := num / den
  let r := num % den
  if den < 2 * r ∨ (2 * r = den ∧ q % 2 = 1) then q + 1 else q

/-- The greatest `k` with `2^k ≤ num / den`, for positive numbers. -/
def floorLog2 (num den : Nat) : Int :=
  let k : Int := (num.log2 : Int) - (den.log2 : Int)
  let scaled := scaleFraction 2 num den (-k)
  if scaled.2 ≤ scaled.1 then k else k - 1

/-- The double nearest to `num / den`, ties to even; `none` when the nearest
double is infinite. -/
def ofRatio (negative : Bool) (num den : Nat) : Option Binary64 :=
  if num = 0 then some (zero negative)
  else
    let e := max (floorLog2 num den - 52) minExponent
    let scaled := scaleFraction 2 num den (-e)
    let m := roundHalfEven scaled.1 scaled.2
    -- A significand that rounds up to 2^53 is 2^52 at the next exponent.
    let carried := if m = Nat.pow 2 53 then (Nat.pow 2 52, e + 1) else (m, e)
    if maxExponent < carried.2 then none else some ⟨negative, carried.1, carried.2⟩

/-- The double nearest to a natural number below `2^1023`. -/
def ofNat (n : Nat) : Binary64 := (ofRatio false n 1).getD (zero false)

/-- The magnitude as a fraction. -/
def ratio (x : Binary64) : Nat × Nat := scaleFraction 2 x.significand 1 x.exponent

/-! ### Powers of ten -/

/-- The double nearest to `10^k`, for `k` up to 308. -/
def powerOfTen (k : Nat) : Binary64 := (ofRatio false (Nat.pow 10 k) 1).getD (zero false)

/-- The rounded product; `none` when it overflows. -/
def mul (x y : Binary64) : Option Binary64 :=
  ofRatio (x.negative != y.negative) (x.ratio.1 * y.ratio.1) (x.ratio.2 * y.ratio.2)

/-- The rounded quotient by a nonzero double; `none` when it overflows. -/
def div (x y : Binary64) : Option Binary64 :=
  ofRatio (x.negative != y.negative) (x.ratio.1 * y.ratio.2) (x.ratio.2 * y.ratio.1)

/-- Divide by `10^k`: by `10^308` as long as the exponent is larger than that,
then by the rest. -/
def shrink (x : Binary64) (k : Nat) : Option Binary64 :=
  if x.isZero then some x
  else if 308 < k then (x.div (powerOfTen 308)).bind fun y => shrink y (k - 308)
  else x.div (powerOfTen k)
termination_by k
decreasing_by omega

/-- `x · 10^k`: one rounded multiplication by a power of ten for `k ≥ 0`, a zero
staying a zero; rounded divisions for `k < 0`.  `none` when it overflows. -/
def scale (x : Binary64) (k : Int) : Option Binary64 :=
  if 0 ≤ k then
    if k ≤ 308 then x.mul (powerOfTen k.toNat)
    else if x.isZero then some x else none
  else x.shrink (-k).toNat

end Binary64

end ApiBinding
