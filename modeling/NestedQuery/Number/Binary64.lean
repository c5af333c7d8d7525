/-!
# Double-precision numbers

A finite double-precision number is its sign and the 63 bits below the
sign, read as a natural number: `p · 2⁵² + m` stands for
`m · 2^p` units of `2^(-1074)`. Read this way the magnitudes are ordered
as the numbers are, so comparison needs no arithmetic on fractions, and
rounding a quotient to the nearest number with ties to even is one
division.
-/

namespace NestedQuery

/-- A finite double-precision number: its sign, and the bits below the sign as a number. The bound
`2047 · 2⁵²` is what infinity has there. -/
structure Binary64 where
  negative : Bool
  magnitude : Nat
  isFinite : magnitude < 0x7ff0000000000000 := by decide
deriving DecidableEq

namespace Binary64

/-- The number of magnitudes that share an exponent, `2⁵²`. -/
def binade : Nat := 0x10000000000000

/-- Positive zero. -/
def zero : Binary64 := ⟨false, 0, by decide⟩

instance : Inhabited Binary64 := ⟨zero⟩

/-- The largest finite magnitude. -/
def maxMagnitude : Nat := 0x7fefffffffffffff

/-! ## Exact value -/

/-- The value of a magnitude in units of `2^(-1074)`. -/
def unitsOf (magnitude : Nat) : Nat :=
  if magnitude < binade then magnitude
  else (binade + magnitude % binade) * Nat.pow 2 (magnitude / binade - 1)

/-- The absolute value in units of `2^(-1074)`. -/
def units (x : Binary64) : Nat := unitsOf x.magnitude

/-- The units in one. -/
def one : Nat := Nat.pow 2 1074

/-- The value of a number without fractional part. -/
def toInt? (x : Binary64) : Option Int :=
  if x.units % one = 0 then
    some (if x.negative then -((x.units / one : Nat) : Int) else ((x.units / one : Nat) : Int))
  else none

/-! ## Order -/

/-- The place of a number among all numbers; the two zeros share one place. -/
def rank (x : Binary64) : Int := if x.negative then -(x.magnitude : Int) else x.magnitude

/-- Numbers are ordered by rank. -/
def order (x y : Binary64) : Ordering := compare x.rank y.rank

/-! ## Rounding -/

/-- A quotient rounded to the nearest natural number, a half to the even neighbour. -/
def roundQuotient (num den : Nat) : Nat :=
  let floor := num / den
  let twice := 2 * (num % den)
  if twice < den then floor
  else if den < twice then floor + 1
  else floor + floor % 2

/-- The magnitude nearest to `num / den`, a half going to the even neighbour.
It is at least `2047 · 2⁵²` where no finite number is near enough. -/
def nearestMagnitude (num den : Nat) : Nat :=
  let whole := num * one / den
  -- the first two binades count units; from there on each binade doubles the step
  let shift := if whole < 2 * binade then 0 else whole.log2 - 52
  shift * binade + roundQuotient (num * one) (den * Nat.pow 2 shift)

/-- A number of given sign and magnitude, unless the magnitude is too large. -/
def ofMagnitude? (negative : Bool) (magnitude : Nat) : Option Binary64 :=
  if h : magnitude < 0x7ff0000000000000 then some ⟨negative, magnitude, h⟩ else none

/-- The number nearest to `num / den`, unless it is too large. -/
def nearest? (negative : Bool) (num den : Nat) : Option Binary64 :=
  ofMagnitude? negative (nearestMagnitude num den)

/-- The number nearest to a decimal `digits · 10^exponent`, unless it is too large.
Exponents that settle the result without arithmetic are taken first. -/
def ofDecimal? (negative : Bool) (digits : Nat) (exponent : Int) : Option Binary64 :=
  if digits = 0 then some ⟨negative, 0, by decide⟩
  else if 0 ≤ exponent then
    -- at least 10⁴⁰¹, and there is nothing to round up to
    if 400 < exponent then none else nearest? negative (digits * Nat.pow 10 exponent.toNat) 1
  -- below half the smallest number, as there are at most as many digits as bits
  else if exponent + (digits.log2 : Int) < -1200 then some ⟨negative, 0, by decide⟩
  else nearest? negative digits (Nat.pow 10 (-exponent).toNat)

/-- The largest number of either sign. -/
def largest (negative : Bool) : Binary64 := ⟨negative, maxMagnitude, by decide⟩

/-- The number nearest to an integer. -/
def ofInt (n : Int) : Binary64 :=
  (nearest? (decide (n < 0)) n.natAbs 1).getD (largest (decide (n < 0)))

/-- The rounded product with a power of ten given as a number; none if it is too large. -/
def mul? (x y : Binary64) : Option Binary64 :=
  nearest? (x.negative != y.negative) (x.units * y.units) (one * one)

/-- The rounded quotient; none if it is too large or the divisor is zero. -/
def div? (x y : Binary64) : Option Binary64 :=
  if y.units = 0 then none else nearest? (x.negative != y.negative) x.units y.units

/-! ## Reading decimals -/

/-- The number nearest to `10^exponent`, for exponents up to 308. -/
def powerOfTen (exponent : Nat) : Binary64 :=
  (nearest? false (Nat.pow 10 exponent) 1).getD (largest false)

/-- Divides by `10^exponent` in steps of at most `10^308`, rounding after each. -/
def scaleDown : Nat → Binary64 → Nat → Binary64
  | 0, x, _ => x
  | steps + 1, x, exponent =>
    if exponent ≤ 308 then (x.div? (powerOfTen exponent)).getD x
    else if x.magnitude = 0 then x
    else scaleDown steps ((x.div? (powerOfTen 308)).getD x) (exponent - 308)

/-- The number that data text writes as `digits · 10^exponent`.
The digits are rounded first and the scaled number once more, so the last place can differ from
that of `ofDecimal?`. None if the number is too large. -/
def ofScaled? (negative : Bool) (digits : Nat) (exponent : Int) : Option Binary64 :=
  let significand := ofInt digits
  let scaled :=
    if 0 ≤ exponent then
      if exponent ≤ 308 then significand.mul? (powerOfTen exponent.toNat)
      else if significand.magnitude = 0 then some significand
      else none
    else some (scaleDown 8 significand (-exponent).toNat)
  scaled.map fun x => { x with negative := negative }

end Binary64

end NestedQuery
