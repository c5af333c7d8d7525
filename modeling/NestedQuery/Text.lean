/-!
# Text

The few readings of plain text that requests need: blanks around a word,
pieces between separators, the cut at a first separator, and the dotted
spelling of a path. Blank means the whole White_Space property, not only
the blanks of the keyboard.
-/

namespace NestedQuery

namespace Text

/-! ## Blanks -/

/-- The characters of the White_Space property above U+0020, but for the range U+2000 to U+200A. -/
def wideBlanks : List Nat :=
  [0x85, 0xa0, 0x1680, 0x2028, 0x2029, 0x202f, 0x205f, 0x3000]

/-- Whether a character has the White_Space property. -/
def isBlank (c : Char) : Bool :=
  (0x09 ≤ c.toNat && c.toNat ≤ 0x0d) || c.toNat == 0x20 ||
    (0x2000 ≤ c.toNat && c.toNat ≤ 0x200a) || wideBlanks.contains c.toNat

/-- The text without the blanks at either end. -/
def trimChars (cs : List Char) : List Char :=
  ((cs.dropWhile isBlank).reverse.dropWhile isBlank).reverse

@[inherit_doc trimChars]
def trim (s : String) : String := String.ofList (trimChars s.toList)

/-! ## Pieces -/

/-- The pieces between separators; a text without separator is one piece. -/
def pieces (separator : Char) (s : String) : List String :=
  (s.toList.splitOn separator).map String.ofList

/-- The parts before and after the first separator, if there is one. -/
def cut? (separator : Char) (s : String) : Option (String × String) :=
  if separator ∈ s.toList then
    some (String.ofList (s.toList.takeWhile (· ≠ separator)),
      String.ofList ((s.toList.dropWhile (· ≠ separator)).drop 1))
  else none

/-- The text after a leading character, if the text starts with it. -/
def afterMark? (mark : Char) (s : String) : Option String :=
  match s.toList with
  | c :: rest => if c = mark then some (String.ofList rest) else none
  | [] => none

/-! ## Paths -/

/-- The segments of a path with dots between them. -/
def dotted : List String → String
  | [] => ""
  | [segment] => segment
  | segment :: next :: rest => segment ++ "." ++ dotted (next :: rest)

/-! ## Digits -/

/-- The value of an ASCII digit. -/
def digit? (c : Char) : Option Nat :=
  if '0' ≤ c ∧ c ≤ '9' then some (c.toNat - '0'.toNat) else none

/-- The value of an ASCII hexadecimal digit of either case. -/
def hexDigit? (c : Char) : Option Nat :=
  if '0' ≤ c ∧ c ≤ '9' then some (c.toNat - '0'.toNat)
  else if 'a' ≤ c ∧ c ≤ 'f' then some (c.toNat - 'a'.toNat + 10)
  else if 'A' ≤ c ∧ c ≤ 'F' then some (c.toNat - 'A'.toNat + 10)
  else none

/-- Reads digits of a base, most significant first. There is at least one, and all are digits. -/
def natOfDigits? (base : Nat) (digitOf : Char → Option Nat) (cs : List Char) : Option Nat :=
  if cs.isEmpty then none
  else cs.foldl (fun total c => do return (← total) * base + (← digitOf c)) (some 0)

/-- The control character that a letter stands for behind a backslash. -/
def controlOfLetter? (c : Char) : Option Char :=
  if c = 'b' then some '\x08'
  else if c = 'f' then some '\x0c'
  else if c = 'n' then some '\n'
  else if c = 'r' then some '\r'
  else if c = 't' then some '\t'
  else none

/-- The character of a code point, unless the number is a surrogate or too large. -/
def charOfCode? (code : Nat) : Option Char :=
  if h : code.isValidChar then some (Char.ofNatAux code h) else none

/-- The decimal digits of a number. -/
def decimalDigits (n : Nat) : List Char := Nat.toDigits 10 n

end Text

end NestedQuery
