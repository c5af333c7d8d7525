import NestedQuery.Json.Basic
/-!
# JSON text

The compact text of a value, without blanks, and the spread text with
two blanks per level. Both keep the order of the fields. In a string
only the quote, the backslash and the characters below the blank are
escaped; everything else stands as it is.
-/

namespace NestedQuery

namespace Json

/-! ## Strings -/

/-- A digit of base sixteen, in lower case. -/
def hexChar (n : Nat) : Char :=
  if n < 10 then Char.ofNat ('0'.toNat + n) else Char.ofNat ('a'.toNat + (n - 10))

/-- A character inside quotes. -/
def escapeChar (c : Char) : List Char :=
  if c = '"' then ['\\', '"']
  else if c = '\\' then ['\\', '\\']
  else if c = '\x08' then ['\\', 'b']
  else if c = '\x0c' then ['\\', 'f']
  else if c = '\n' then ['\\', 'n']
  else if c = '\r' then ['\\', 'r']
  else if c = '\t' then ['\\', 't']
  else if c.toNat < 0x20 then
    ['\\', 'u', '0', '0', hexChar (c.toNat / 16), hexChar (c.toNat % 16)]
  else [c]

/-- The characters of a text inside quotes. -/
def escape (cs : List Char) : List Char := cs.flatMap escapeChar

/-- A text in quotes. -/
def quoted (s : String) : String := String.ofList ('"' :: (escape s.toList ++ ['"']))

/-! ## Compact text -/

mutual

/-- The text of a value without blanks. -/
def compact : Json → String
  | null => "null"
  | bool true => "true"
  | bool false => "false"
  | num n => n.text
  | str s => quoted s
  | arr [] => "[]"
  | arr (item :: rest) => "[" ++ item.compact ++ compactItems rest
  | obj [] => "\x7b\x7d"
  | obj ((key, value) :: rest) =>
    "\x7b" ++ quoted key ++ ":" ++ value.compact ++ compactFields rest

/-- The text of the items after the first, and the closing bracket. -/
def compactItems : List Json → String
  | [] => "]"
  | item :: rest => "," ++ item.compact ++ compactItems rest

/-- The text of the fields after the first, and the closing brace. -/
def compactFields : List (String × Json) → String
  | [] => "\x7d"
  | (key, value) :: rest => "," ++ quoted key ++ ":" ++ value.compact ++ compactFields rest

end

/-! ## Spread text -/

/-- A new line at a level. -/
def newLine (level : Nat) : String := "\n" ++ String.ofList (List.replicate (2 * level) ' ')

mutual

/-- The text of a value with each item and field on a line of its own, at a level. -/
def spreadAt (level : Nat) : Json → String
  | arr (item :: rest) =>
    "[" ++ newLine (level + 1) ++ spreadAt (level + 1) item ++ spreadItems level rest
  | obj ((key, value) :: rest) =>
    "\x7b" ++ newLine (level + 1) ++ quoted key ++ ": " ++ spreadAt (level + 1) value ++
      spreadFields level rest
  | null => "null"
  | bool true => "true"
  | bool false => "false"
  | num n => n.text
  | str s => quoted s
  | arr [] => "[]"
  | obj [] => "\x7b\x7d"

/-- The lines of the items after the first, and the closing bracket. -/
def spreadItems (level : Nat) : List Json → String
  | [] => newLine level ++ "]"
  | item :: rest =>
    "," ++ newLine (level + 1) ++ spreadAt (level + 1) item ++ spreadItems level rest

/-- The lines of the fields after the first, and the closing brace. -/
def spreadFields (level : Nat) : List (String × Json) → String
  | [] => newLine level ++ "\x7d"
  | (key, value) :: rest =>
    "," ++ newLine (level + 1) ++ quoted key ++ ": " ++ spreadAt (level + 1) value ++
      spreadFields level rest

end

/-- The text of a value over several lines. -/
def spread (value : Json) : String := spreadAt 0 value

end Json

end NestedQuery
