import NestedQuery.Number.Binary64
import NestedQuery.Text
/-!
# The fewest digits that read back

A double-precision number stands for all reals that round to it, so it
may be written with any decimal from that interval. `shortest` takes the
grids of one digit, of two digits and so on, looks at the two grid
points around the number, and stops at the first grid of which one lies
in the interval; of two it takes the nearer. Which way an exact tie
goes, and how the digits are laid out, is left to the format: `Layout`
is the record of those decisions.
-/

namespace NestedQuery

/-- A positive decimal: `digits · 10^exponent`. -/
structure Decimal where
  digits : Nat
  exponent : Int
deriving DecidableEq

/-- Where an exact tie between two decimals goes. -/
inductive Tie where
  | toEven
  | up
deriving DecidableEq

namespace Binary64

/-! ## The interval of a number -/

/-- A fraction compared with a decimal: `num / den` against `digits · 10^exponent`. -/
def orderDecimal (num den digits : Nat) (exponent : Int) : Ordering :=
  if 0 ≤ exponent then compare num (digits * Nat.pow 10 exponent.toNat * den)
  else compare (num * Nat.pow 10 (-exponent).toNat) (digits * den)

/-- Whether a decimal rounds to a magnitude: it lies between the midpoints to the neighbours,
and may lie on them where the magnitude is even. -/
def roundsTo (magnitude digits : Nat) (exponent : Int) : Bool :=
  -- both midpoints doubled, to stay among whole units
  let low := unitsOf (magnitude - 1) + unitsOf magnitude
  let high := unitsOf magnitude + unitsOf (magnitude + 1)
  let below := orderDecimal low (2 * one) digits exponent
  let above := orderDecimal high (2 * one) digits exponent
  if magnitude % 2 = 0 then below.isLE && above.isGE else below.isLT && above.isGT

/-! ## Choosing digits -/

/-- The exponent of the leading digit of a positive fraction. -/
def leadingExponent (num den : Nat) : Int :=
  if den ≤ num then ((Text.decimalDigits (num / den)).length : Int) - 1
  else -((Text.decimalDigits ((den + num - 1) / num - 1)).length : Int)

/-- The number of whole steps of `10^exponent` in a fraction. -/
def stepsBelow (num den : Nat) (exponent : Int) : Nat :=
  if 0 ≤ exponent then num / (den * Nat.pow 10 exponent.toNat)
  else num * Nat.pow 10 (-exponent).toNat / den

/-- Of two neighbouring grid points, the one nearer to a fraction. -/
def nearerStep (tie : Tie) (num den below : Nat) (exponent : Int) : Nat :=
  match orderDecimal (2 * num) den (2 * below + 1) exponent with
  | .lt => below
  | .gt => below + 1
  | .eq =>
    match tie with
    | .up => below + 1
    | .toEven => below + below % 2

/-- The grid point to write on the grid of `10^exponent`, if one rounds to the magnitude. -/
def onGrid? (tie : Tie) (magnitude : Nat) (exponent : Int) : Option Nat :=
  let below := stepsBelow (unitsOf magnitude) one exponent
  match roundsTo magnitude below exponent, roundsTo magnitude (below + 1) exponent with
  | true, true => some (nearerStep tie (unitsOf magnitude) one below exponent)
  | true, false => some below
  | false, true => some (below + 1)
  | false, false => none

/-- Tries finer and finer grids, down to the exponent of the last place. -/
def firstGrid (tie : Tie) (magnitude : Nat) : Nat → Int → Decimal
  | 0, exponent => ⟨stepsBelow (unitsOf magnitude) one exponent, exponent⟩
  | grids + 1, exponent =>
    match onGrid? tie magnitude exponent with
    | some digits => ⟨digits, exponent⟩
    | none => firstGrid tie magnitude grids (exponent - 1)

/-- The decimal with the fewest digits that rounds to a positive magnitude. -/
def shortest (tie : Tie) (magnitude : Nat) : Decimal :=
  firstGrid tie magnitude 17 (leadingExponent (unitsOf magnitude) one)

end Binary64

/-! ## Layout -/

/-- How a format lays digits out. -/
structure Layout where
  /-- Where a tie between two shortest decimals goes. -/
  tie : Tie
  /-- The exponents of the leading digit that are written without exponent; all, if none. -/
  plain : Option (Int × Int)
  /-- Whether a whole number keeps a point and a zero. -/
  pointZero : Bool

namespace Layout

/-- Digits and the exponent of the first of them, without trailing zeros. -/
def significant (d : Decimal) : List Char × Int :=
  let all := Text.decimalDigits d.digits
  let leading := d.exponent + (all.length : Int) - 1
  match (all.reverse.dropWhile (· = '0')).reverse with
  | [] => (['0'], 0)
  | kept => (kept, leading)

/-- Digits written out in place. -/
def plainText (pointZero : Bool) (digits : List Char) (leading : Int) : List Char :=
  if leading < 0 then
    '0' :: '.' :: (List.replicate (-leading - 1).toNat '0' ++ digits)
  else
    let whole := leading.toNat + 1
    if digits.length ≤ whole then
      digits ++ List.replicate (whole - digits.length) '0' ++
        (if pointZero then ['.', '0'] else [])
    else digits.take whole ++ '.' :: digits.drop whole

/-- Digits with one in front of the point, and a signed exponent. -/
def exponentText (digits : List Char) (leading : Int) : List Char :=
  let mantissa :=
    match digits with
    | [] => []
    | [first] => [first]
    | first :: rest => first :: '.' :: rest
  let sign := if leading < 0 then '-' else '+'
  mantissa ++ 'e' :: sign :: Text.decimalDigits leading.natAbs

/-- The text of a number. -/
def write (layout : Layout) (x : Binary64) : String :=
  let (digits, leading) :=
    if x.magnitude = 0 then (['0'], 0)
    else significant (Binary64.shortest layout.tie x.magnitude)
  let isPlain :=
    match layout.plain with
    | none => true
    | some (least, greatest) => decide (least ≤ leading ∧ leading ≤ greatest)
  let body :=
    if isPlain then plainText layout.pointZero digits leading else exponentText digits leading
  String.ofList (if x.negative then '-' :: body else body)

end Layout

end NestedQuery
