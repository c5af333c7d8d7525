import NestedQuery.Number.Shortest
/-!
# Numbers

A number of a data text is an integer or a finite double-precision
number. Two of them are the same only if they are of one kind, but they
are ordered across the kinds: integers exactly, and everything else as
double-precision numbers. An integer is held as a signed word where it
fits one and as an unsigned word otherwise, and the order goes by how
the two are held; that it is the order of the integers is `order_int`.
Readers make integers between `-2⁶³` and `2⁶⁴ - 1` only, so that one
bound tells whether an integer fits a word: the upper one if the word has
a sign, the lower one if it has none.
-/

namespace NestedQuery

/-- An integer or a finite double-precision number. -/
inductive Number where
  | int (value : Int)
  | float (value : Binary64)
deriving DecidableEq, Inhabited

namespace Number

/-! ## Readings -/

/-- The value of an integer that fits a signed word. -/
def signed? : Number → Option Int
  | .int n => if n < 0x8000000000000000 then some n else none
  | .float _ => none

/-- The value of an integer that is not negative, which fits an unsigned word. -/
def toNat? : Number → Option Nat
  | .int n => if 0 ≤ n then some n.toNat else none
  | .float _ => none

/-- Whether the number is a double-precision one. -/
def isFloat : Number → Bool
  | .int _ => false
  | .float _ => true

/-- The number as a double-precision number, rounded if need be. -/
def toBinary64 : Number → Binary64
  | .int n => .ofInt n
  | .float x => x

/-! ## Sameness and order -/

/-- Numbers of one kind are the same if their values are; the two zeros are the same. -/
def same : Number → Number → Bool
  | .int a, .int b => a == b
  | .float a, .float b => a.rank == b.rank
  | _, _ => false

/-- The order of two numbers: as words of one kind where both fit it, and as double-precision
numbers if either is one. -/
def order (a b : Number) : Ordering :=
  match a.signed?, b.signed? with
  | some x, some y => compare x y
  | _, _ =>
    match a.toNat?, b.toNat? with
    | some x, some y => compare x y
    | _, _ =>
      if a.isFloat || b.isFloat then a.toBinary64.order b.toBinary64
      -- one is below zero and the other above all signed words
      else if a.toNat?.isNone then .lt
      else .gt

/-! ## Text -/

/-- In data text, numbers from `0.00001` up to `10^16` are written out with a point;
others take an exponent, and a tie goes to the even digit. -/
def dataLayout : Layout := ⟨.toEven, some (-5, 15), true⟩

/-- In a join key, numbers are always written out, and a tie goes up. -/
def keyLayout : Layout := ⟨.up, none, false⟩

/-- The text of a number in data. -/
def text : Number → String
  | .int n => toString n
  | .float x => dataLayout.write x

/-- The text of a double-precision number in a join key: a whole number reads as an integer of at
most 64 bits does, so that `1.0` and `1` meet. -/
def floatKeyText (x : Binary64) : String :=
  match x.toInt? with
  | some n =>
    if -0x8000000000000000 ≤ n ∧ n < 0x8000000000000000 then toString n
    else if 0 ≤ n ∧ n < 0x10000000000000000 then toString n.toNat
    else keyLayout.write x
  | none => keyLayout.write x

/-- The text by which join keys are compared. -/
def keyText (number : Number) : String :=
  match number.signed? with
  | some n => toString n
  | none =>
    match number.toNat? with
    | some n => toString n
    | none => floatKeyText number.toBinary64

/-! ## Integers

However they are held, integers are ordered and written exactly.
-/

section

variable {n : Int}

theorem signed?_of_lt (h : n < 0x8000000000000000) : signed? (.int n) = some n := if_pos h

theorem signed?_of_le (h : 0x8000000000000000 ≤ n) : signed? (.int n) = none :=
  if_neg (Int.not_lt.2 h)

theorem toNat?_of_nonneg (h : 0 ≤ n) : toNat? (.int n) = some n.toNat := if_pos h

theorem toNat?_of_neg (h : n < 0) : toNat? (.int n) = none := if_neg (Int.not_le.2 h)

/-- Unsigned words are ordered as the integers they hold. -/
theorem compare_toNat {a b : Int} (ha : 0 ≤ a) (hb : 0 ≤ b) :
    compare a.toNat b.toNat = compare a b := by
  cases hcompare : compare a b with
  | lt => exact Nat.compare_eq_lt.2 (by have := Int.compare_eq_lt.1 hcompare; omega)
  | eq => exact Nat.compare_eq_eq.2 (by have := Int.compare_eq_eq.1 hcompare; omega)
  | gt => exact Nat.compare_eq_gt.2 (by have := Int.compare_eq_gt.1 hcompare; omega)

end

/-- **The order of integers is exact**, whichever words hold them. -/
theorem order_int (a b : Int) : order (.int a) (.int b) = compare a b := by
  rcases Int.lt_or_le a 0x8000000000000000 with ha | ha
  · rcases Int.lt_or_le b 0x8000000000000000 with hb | hb
    · simp only [order, signed?_of_lt ha, signed?_of_lt hb]
    · rcases Int.lt_or_le a 0 with hneg | hnonneg
      · simp only [order, signed?_of_lt ha, signed?_of_le hb, toNat?_of_neg hneg, isFloat]
        exact (Int.compare_eq_lt.2 (by omega)).symm
      · simp only [order, signed?_of_lt ha, signed?_of_le hb, toNat?_of_nonneg hnonneg,
          toNat?_of_nonneg (show 0 ≤ b by omega)]
        exact compare_toNat hnonneg (by omega)
  · rcases Int.lt_or_le b 0 with hneg | hnonneg
    · simp only [order, signed?_of_le ha, toNat?_of_nonneg (show 0 ≤ a by omega),
        toNat?_of_neg hneg, isFloat]
      exact (Int.compare_eq_gt.2 (by omega)).symm
    · simp only [order, signed?_of_le ha, toNat?_of_nonneg (show 0 ≤ a by omega),
        toNat?_of_nonneg hnonneg]
      exact compare_toNat (by omega) hnonneg

/-- An integer is written out in a join key, whichever word holds it. -/
theorem keyText_int (n : Int) : keyText (.int n) = toString n := by
  rcases Int.lt_or_le n 0x8000000000000000 with hword | hword
  · simp only [keyText, signed?_of_lt hword]
  · have hnonneg : 0 ≤ n := by omega
    simp only [keyText, signed?_of_le hword, toNat?_of_nonneg hnonneg]
    cases n with
    | ofNat m => rfl
    | negSucc m => exact absurd hnonneg (Int.negSucc_not_nonneg m).1

end Number

end NestedQuery
