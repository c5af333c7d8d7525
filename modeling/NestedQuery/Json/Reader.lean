import NestedQuery.Json.Basic
import NestedQuery.Text
/-!
# Reading JSON text

`Json.read?` takes exactly one value, with blanks around it and nothing
else. It is strict: no leading zeros, no commas at an end, no control
characters in strings, surrogates only in pairs, and fewer than 128
levels. A repeated key keeps its first place and takes its last value.

Digits of a number are kept as long as they fit 64 bits. A number
written without point and exponent that fits is an integer; any other is
scaled from the kept digits, and refused if it is too large. Minus zero
is not an integer.
-/

namespace NestedQuery

namespace Json

/-! ## Blanks and strings -/

/-- The four blanks of JSON. -/
def isSpace (c : Char) : Bool := c = ' ' || c = '\t' || c = '\n' || c = '\r'

/-- The text from its first character that is no blank. -/
def skipSpace (cs : List Char) : List Char := cs.dropWhile isSpace

/-- The character meant by a one-letter escape. -/
def escaped? (c : Char) : Option Char :=
  if c = '"' ∨ c = '\\' ∨ c = '/' then some c else Text.controlOfLetter? c

/-- The code unit of four hexadecimal digits. -/
def codeUnit? (a b c d : Char) : Option Nat := Text.natOfDigits? 16 Text.hexDigit? [a, b, c, d]

/-- The character of a surrogate pair. -/
def pairChar? (high low : Nat) : Option Char :=
  if 0xdc00 ≤ low ∧ low < 0xe000 then
    Text.charOfCode? (0x10000 + (high - 0xd800) * 0x400 + (low - 0xdc00))
  else none

/-- The rest of a string behind its opening quote, given what was read of it, last first. -/
def readString? (done : List Char) : List Char → Option (String × List Char)
  | [] => none
  | '"' :: rest => some (String.ofList done.reverse, rest)
  | '\\' :: 'u' :: a :: b :: c :: d :: '\\' :: 'u' :: e :: f :: g :: h :: rest => do
    let unit ← codeUnit? a b c d
    -- only a high surrogate takes the second escape with it
    if 0xd800 ≤ unit ∧ unit < 0xdc00 then
      readString? ((← pairChar? unit (← codeUnit? e f g h)) :: done) rest
    else readString? ((← Text.charOfCode? unit) :: done) ('\\' :: 'u' :: e :: f :: g :: h :: rest)
  | '\\' :: 'u' :: a :: b :: c :: d :: rest => do
    readString? ((← Text.charOfCode? (← codeUnit? a b c d)) :: done) rest
  | '\\' :: c :: rest => do readString? ((← escaped? c) :: done) rest
  | c :: rest => if c.toNat < 0x20 then none else readString? (c :: done) rest

/-! ## Numbers -/

/-- Adds digits to a number as long as it stays below `2⁶⁴`: the number, how many digits were
added, and how many were left. -/
def keepDigits : Nat → List Nat → Nat × Nat × Nat
  | total, [] => (total, 0, 0)
  | total, digit :: rest =>
    if total * 10 + digit ≤ 0xffffffffffffffff then
      let (kept, added, left) := keepDigits (total * 10 + digit) rest
      (kept, added + 1, left)
    else (total, 0, rest.length + 1)

/-- The digits at the front of a text. -/
def leadingDigits (cs : List Char) : List Nat × List Char :=
  ((cs.takeWhile Char.isDigit).filterMap Text.digit?, cs.dropWhile Char.isDigit)

/-- The digits before the point; a zero stands alone. -/
def wholeDigits? (cs : List Char) : Option (List Nat × List Char) :=
  match leadingDigits cs with
  | ([], _) => none
  | (0 :: _ :: _, _) => none
  | found => some found

/-- The point and the digits behind it, if there is one. -/
def fractionDigits? : List Char → Option (List Nat × List Char)
  | '.' :: rest =>
    match leadingDigits rest with
    | ([], _) => none
    | found => some found
  | cs => some ([], cs)

/-- The exponent, if there is one. -/
def exponent? : List Char → Option (Option Int × List Char)
  | c :: rest =>
    if c = 'e' ∨ c = 'E' then
      let (negative, rest) :=
        match rest with
        | '+' :: more => (false, more)
        | '-' :: more => (true, more)
        | more => (false, more)
      match leadingDigits rest with
      | ([], _) => none
      | (digits, rest) =>
        let size : Nat := digits.foldl (fun total digit => total * 10 + digit) 0
        some (some (if negative then -(size : Int) else size), rest)
    else some (none, c :: rest)
  | [] => some (none, [])

/-- The number of a sign, the digits around the point and an exponent. -/
def number? (negative : Bool) (whole fraction : List Nat) (exponent : Option Int) :
    Option Number :=
  let (size, _, left) := keepDigits 0 whole
  if fraction.isEmpty ∧ exponent.isNone ∧ left = 0 ∧
      (negative → 0 < size ∧ size ≤ 0x8000000000000000) then
    some (.int (if negative then -(size : Int) else size))
  else
    -- digits that were left before the point scale up, those kept behind it scale down
    let (digits, added, _) := keepDigits size fraction
    (Binary64.ofScaled? negative digits ((left : Int) - added + exponent.getD 0)).map .float

/-- A number at the front of a text. -/
def readNumber? (cs : List Char) : Option (Number × List Char) := do
  let (negative, cs) :=
    match cs with
    | '-' :: rest => (true, rest)
    | cs => (false, cs)
  let (whole, cs) ← wholeDigits? cs
  let (fraction, cs) ← fractionDigits? cs
  let (exponent, cs) ← exponent? cs
  return (← number? negative whole fraction exponent, cs)

/-! ## Values -/

mutual

/-- A value at the front of a text. Each level below takes one from `levels`. -/
def readValue? : Nat → Nat → List Char → Option (Json × List Char)
  | 0, _, _ => none
  | fuel + 1, levels, cs =>
    match skipSpace cs with
    | 'n' :: 'u' :: 'l' :: 'l' :: rest => some (null, rest)
    | 't' :: 'r' :: 'u' :: 'e' :: rest => some (bool true, rest)
    | 'f' :: 'a' :: 'l' :: 's' :: 'e' :: rest => some (bool false, rest)
    | '"' :: rest => (readString? [] rest).map fun (s, rest) => (str s, rest)
    | '[' :: rest =>
      -- a level is used up even if nothing stands in it
      if levels ≤ 1 then none
      else match skipSpace rest with
        | ']' :: rest => some (arr [], rest)
        | rest => readItems? fuel (levels - 1) [] rest
    | '\x7b' :: rest =>
      if levels ≤ 1 then none
      else match skipSpace rest with
        | '\x7d' :: rest => some (obj [], rest)
        | rest => readFields? fuel (levels - 1) [] rest
    | rest => (readNumber? rest).map fun (n, rest) => (num n, rest)

/-- The items from here to the closing bracket, after those read, last first. -/
def readItems? : Nat → Nat → List Json → List Char → Option (Json × List Char)
  | 0, _, _, _ => none
  | fuel + 1, levels, done, cs => do
    let (item, cs) ← readValue? fuel levels cs
    match skipSpace cs with
    | ',' :: rest => readItems? fuel levels (item :: done) rest
    | ']' :: rest => some (arr (item :: done).reverse, rest)
    | _ => none

/-- The fields from here to the closing brace, after those read. -/
def readFields? : Nat → Nat → Record → List Char → Option (Json × List Char)
  | 0, _, _, _ => none
  | fuel + 1, levels, done, cs =>
    match skipSpace cs with
    | '"' :: rest => do
      let (key, cs) ← readString? [] rest
      match skipSpace cs with
      | ':' :: rest =>
        let (value, cs) ← readValue? fuel levels rest
        match skipSpace cs with
        | ',' :: rest => readFields? fuel levels (Keyed.put done key value) rest
        | '\x7d' :: rest => some (obj (Keyed.put done key value), rest)
        | _ => none
      | _ => none
    | _ => none

end

/-- The value that a text writes, if it writes one and nothing else. -/
def read? (s : String) : Option Json :=
  let cs := s.toList
  match readValue? (2 * cs.length + 2) 128 cs with
  | some (value, rest) => if (skipSpace rest).isEmpty then some value else none
  | none => none

end Json

end NestedQuery
