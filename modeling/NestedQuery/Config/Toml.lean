import NestedQuery.Json.Basic
import NestedQuery.Text
/-!
# Reading TOML

A TOML text is read into statements, and the statements into a tree of
tables: `Toml.read?` gives the tree as a JSON object whose keys stand in
the order of the text. A table may be opened once, an array of tables
any number of times, and a key may be given one value. Tables made on
the way to a header may still be opened; tables made by a dotted key may
not, but other dotted keys may add to them.

Read are comments, bare and quoted keys, dotted keys and headers, arrays
of tables, inline tables and arrays, one-line strings of both kinds,
integers, floats and truth values. A float that is no number has no JSON
value and reads as null. Arrays and inline tables may stand in each
other `Toml.maxDepth` deep, and no dotted key is longer than that.
-/

namespace NestedQuery

namespace Toml

/-- The most levels of arrays and inline tables, and the most keys of a dotted key. -/
def maxDepth : Nat := 79

/-! ## Blanks, comments and lines -/

/-- Skips blanks within a line. -/
def skipBlanks (cs : List Char) : List Char := cs.dropWhile fun c => c = ' ' || c = '\t'

/-- Whether a character may not stand in comments and strings. -/
def isControl (c : Char) : Bool := (c.toNat < 0x20 && c ≠ '\t') || c = '\x7f'

/-- The text behind a line break. -/
def afterBreak? : List Char → Option (List Char)
  | '\n' :: rest => some rest
  | '\r' :: '\n' :: rest => some rest
  | _ => none

/-- The text behind a comment, if there is one; the line break stays. -/
def skipComment : List Char → List Char
  | '#' :: rest => rest.dropWhile fun c => !isControl c
  | cs => cs

/-- The text behind the rest of a line, on which only blanks and a comment may stand. -/
def endLine? (cs : List Char) : Option (List Char) :=
  match skipComment (skipBlanks cs) with
  | [] => some []
  | rest => afterBreak? rest

/-- Skips lines without a statement, and the blanks before the next one. -/
def skipLines : Nat → List Char → List Char
  | 0, cs => cs
  | fuel + 1, cs =>
    match afterBreak? (skipComment (skipBlanks cs)) with
    | some rest => skipLines fuel rest
    | none => skipComment (skipBlanks cs)

/-! ## Strings and keys -/

/-- The character of a run of hexadecimal digits. -/
def codeChar? (cs : List Char) : Option Char :=
  (Text.natOfDigits? 16 Text.hexDigit? cs).bind Text.charOfCode?

/-- The character meant by a one-letter escape. -/
def escaped? (c : Char) : Option Char :=
  if c = '"' ∨ c = '\\' then some c else Text.controlOfLetter? c

/-- The rest of a string in double quotes, given what was read of it, last first. -/
def readBasic? (done : List Char) : List Char → Option (String × List Char)
  | [] => none
  | '"' :: rest => some (String.ofList done.reverse, rest)
  | '\\' :: 'u' :: a :: b :: c :: d :: rest => do
    readBasic? ((← codeChar? [a, b, c, d]) :: done) rest
  | '\\' :: 'U' :: a :: b :: c :: d :: e :: f :: g :: h :: rest => do
    readBasic? ((← codeChar? [a, b, c, d, e, f, g, h]) :: done) rest
  | '\\' :: c :: rest => do readBasic? ((← escaped? c) :: done) rest
  | c :: rest => if isControl c then none else readBasic? (c :: done) rest

/-- The rest of a string in single quotes, in which nothing is escaped. -/
def readLiteral? (done : List Char) : List Char → Option (String × List Char)
  | [] => none
  | '\'' :: rest => some (String.ofList done.reverse, rest)
  | c :: rest => if isControl c then none else readLiteral? (c :: done) rest

/-- Whether a character may stand in a key without quotes. -/
def isBare (c : Char) : Bool := c.isAlphanum || c = '_' || c = '-'

/-- One key. -/
def readKey? : List Char → Option (String × List Char)
  | '"' :: rest => readBasic? [] rest
  | '\'' :: rest => readLiteral? [] rest
  | cs =>
    match cs.takeWhile isBare with
    | [] => none
    | key => some (String.ofList key, cs.dropWhile isBare)

/-- Keys with dots between them, at most a given number, and the text behind the blanks that
follow. -/
def readKeys? : Nat → List Char → Option (List String × List Char)
  | 0, _ => none
  | most + 1, cs => do
    let (key, cs) ← readKey? (skipBlanks cs)
    match skipBlanks cs with
    | '.' :: rest =>
      let (keys, cs) ← readKeys? most rest
      return (key :: keys, cs)
    | rest => return ([key], rest)

/-- A dotted key. -/
def readPath? : List Char → Option (List String × List Char) := readKeys? maxDepth

/-! ## Numbers -/

/-- Digits without the underscores between them; an underscore needs a digit on either side. -/
def joinDigits? (isDigit : Char → Bool) : List Char → Option (List Char)
  | [] => none
  | [c] => if isDigit c then some [c] else none
  | c :: '_' :: rest => if isDigit c then (joinDigits? isDigit rest).map (c :: ·) else none
  | c :: rest => if isDigit c then (joinDigits? isDigit rest).map (c :: ·) else none

/-- The value of a run of decimal digits with underscores. -/
def decimal? (cs : List Char) : Option (List Char × Nat) := do
  let digits ← joinDigits? Char.isDigit cs
  return (digits, ← Text.natOfDigits? 10 Text.digit? digits)

/-- The value of decimal digits without leading zeros. -/
def plainDecimal? (cs : List Char) : Option (List Char × Nat) := do
  let (digits, value) ← decimal? cs
  if digits.length > 1 ∧ digits.head? = some '0' then none else return (digits, value)

/-- A sign, if there is one: whether it is a minus, and the rest. -/
def signed : List Char → Bool × List Char
  | '-' :: rest => (true, rest)
  | '+' :: rest => (false, rest)
  | cs => (false, cs)

/-- An integer of 64 bits, if it is one. -/
def intJson? (n : Int) : Option Json :=
  if -0x8000000000000000 ≤ n ∧ n ≤ 0x7fffffffffffffff then some (.num (.int n)) else none

/-- An integer of base sixteen, eight or two. -/
def basedInteger? (base : Nat) (cs : List Char) : Option Json := do
  let digitOf := fun c => (Text.hexDigit? c).filter (· < base)
  let digits ← joinDigits? (fun c => (digitOf c).isSome) cs
  intJson? (← Text.natOfDigits? base digitOf digits)

/-- An integer without its sign. -/
def integer? (negative : Bool) (cs : List Char) : Option Json := do
  let (_, size) ← plainDecimal? cs
  intJson? (if negative then -(size : Int) else size)

/-- The exponent of a float, its mark taken off. -/
def exponent? (cs : List Char) : Option Int := do
  let (negative, digits) := signed cs
  let (_, size) ← decimal? digits
  return if negative then -(size : Int) else size

/-- A float without its sign: it has a fraction, an exponent, or both. -/
def float? (negative : Bool) (cs : List Char) : Option Json := do
  let isMark := fun c => c = 'e' || c = 'E'
  let mantissa := cs.takeWhile fun c => !isMark c
  let mark := cs.dropWhile fun c => !isMark c
  let exponent ← if mark.isEmpty then some 0 else exponent? (mark.drop 1)
  let whole := mantissa.takeWhile (· ≠ '.')
  let point := mantissa.dropWhile (· ≠ '.')
  if mark.isEmpty ∧ point.isEmpty then none
  else do
    let (wholeDigits, _) ← plainDecimal? whole
    let fraction ← if point.isEmpty then some [] else (decimal? (point.drop 1)).map Prod.fst
    let digits ← Text.natOfDigits? 10 Text.digit? (wholeDigits ++ fraction)
    match Binary64.ofDecimal? negative digits (exponent - fraction.length) with
    | some x => some (.num (.float x))
    -- below all numbers is minus infinity, while nothing may be above them
    | none => if negative then some .null else none

/-- A number, which is the whole of a word. -/
def number? (word : List Char) : Option Json :=
  match word with
  | '0' :: 'x' :: digits => basedInteger? 16 digits
  | '0' :: 'o' :: digits => basedInteger? 8 digits
  | '0' :: 'b' :: digits => basedInteger? 2 digits
  | _ =>
    let (negative, size) := signed word
    if size = ['i', 'n', 'f'] ∨ size = ['n', 'a', 'n'] then some .null
    else (integer? negative size).or (float? negative size)

/-- Whether a character may stand in a number. -/
def isWordChar (c : Char) : Bool := c.isAlphanum || c = '_' || c = '+' || c = '-' || c = '.'

/-! ## Tables -/

/-- How a table came to be. -/
inductive Origin where
  /-- On the way to a header. -/
  | implied
  /-- By a dotted key. -/
  | dotted
  /-- By its own header. -/
  | declared
deriving DecidableEq

/-- What stands under a key: a value, a table, or an array of tables. -/
inductive Node where
  | leaf (value : Json)
  | table (origin : Origin) (entries : List (String × Node))
  | tables (elements : List (List (String × Node)))

/-- The entries of a table. -/
abbrev Entries := Keyed Node

mutual

/-- A node as a value. -/
def Node.toJson : Node → Json
  | .leaf value => value
  | .table _ entries => .obj (entriesJson entries)
  | .tables elements => .arr (elementsJson elements)

/-- The entries of a table as fields. -/
def entriesJson : List (String × Node) → List (String × Json)
  | [] => []
  | (key, node) :: rest => (key, node.toJson) :: entriesJson rest

/-- The elements of an array of tables as values. -/
def elementsJson : List (List (String × Node)) → List Json
  | [] => []
  | entries :: rest => .obj (entriesJson entries) :: elementsJson rest

end

/-- Changes the table at a path, making tables on the way; of an array of tables, the last. -/
def within (change : Entries → Option Entries) : List String → Entries → Option Entries
  | [], entries => change entries
  | key :: rest, entries =>
    match entries.get? key with
    | none => do return entries.put key (.table .implied (← within change rest []))
    | some (.table origin inner) => do
      return entries.put key (.table origin (← within change rest inner))
    | some (.tables elements) => do
      let last ← elements.getLast?
      return entries.put key (.tables (elements.dropLast ++ [← within change rest last]))
    | some (.leaf _) => none

/-- Opens a table. -/
def openTable (key : String) (entries : Entries) : Option Entries :=
  match entries.get? key with
  | none => some (entries.put key (.table .declared []))
  -- the table stands where its header does, not where it was first needed
  | some (.table .implied inner) => some ((entries.erase key).put key (.table .declared inner))
  | some _ => none

/-- Opens another table of an array. -/
def openElement (key : String) (entries : Entries) : Option Entries :=
  match entries.get? key with
  | none => some (entries.put key (.tables [[]]))
  | some (.tables elements) => some (entries.put key (.tables (elements ++ [[]])))
  | some _ => none

/-- Gives a value to a dotted key. -/
def assign (value : Json) : List String → Entries → Option Entries
  | [], _ => none
  | [key], entries => if entries.has key then none else some (entries.put key (.leaf value))
  | key :: next :: rest, entries =>
    match entries.get? key with
    | none => do return entries.put key (.table .dotted (← assign value (next :: rest) []))
    | some (.table origin inner) =>
      -- a table with a header is closed, and one made on the way takes no direct value
      if origin = .declared ∨ (rest = [] ∧ origin ≠ .dotted) then none
      else do return entries.put key (.table origin (← assign value (next :: rest) inner))
    | some (.tables elements) =>
      -- the last element takes no direct value either, but may get tables
      if rest = [] then none
      else do
        let last ← elements.getLast?
        return entries.put key (.tables (elements.dropLast ++ [← assign value (next :: rest) last]))
    | some (.leaf _) => none

/-! ## Values -/

mutual

/-- A value at the front of a text, in which a number of levels may be opened. -/
def readValue? : Nat → Nat → List Char → Option (Json × List Char)
  | 0, _, _ => none
  | fuel + 1, levels, cs =>
    match cs with
    | '"' :: rest => (readBasic? [] rest).map fun (s, rest) => (.str s, rest)
    | '\'' :: rest => (readLiteral? [] rest).map fun (s, rest) => (.str s, rest)
    | '[' :: rest => if levels = 0 then none else readItems? fuel (levels - 1) [] rest
    | '\x7b' :: rest =>
      if levels = 0 then none
      else
        match skipBlanks rest with
        | '\x7d' :: rest => some (.obj [], rest)
        | rest => readInline? fuel (levels - 1) [] rest
    | _ =>
      let word := cs.takeWhile isWordChar
      let rest := cs.dropWhile isWordChar
      if word = ['t', 'r', 'u', 'e'] then some (.bool true, rest)
      else if word = ['f', 'a', 'l', 's', 'e'] then some (.bool false, rest)
      else (number? word).map fun value => (value, rest)

/-- The items from here to the closing bracket, after those read, last first. They may stand on
several lines, and a comma may follow the last. -/
def readItems? : Nat → Nat → List Json → List Char → Option (Json × List Char)
  | 0, _, _, _ => none
  | fuel + 1, levels, done, cs =>
    match skipLines fuel cs with
    | ']' :: rest => some (.arr done.reverse, rest)
    | cs => do
      let (item, cs) ← readValue? fuel levels cs
      match skipLines fuel cs with
      | ',' :: rest => readItems? fuel levels (item :: done) rest
      | ']' :: rest => some (.arr (item :: done).reverse, rest)
      | _ => none

/-- The assignments from here to the closing brace of an inline table, after those read. -/
def readInline? : Nat → Nat → Entries → List Char → Option (Json × List Char)
  | 0, _, _, _ => none
  | fuel + 1, levels, done, cs => do
    let (path, cs) ← readPath? cs
    match cs with
    | '=' :: rest =>
      let (value, cs) ← readValue? fuel levels (skipBlanks rest)
      let entries ← assign value path done
      match skipBlanks cs with
      | ',' :: rest => readInline? fuel levels entries rest
      | '\x7d' :: rest => some (.obj (entriesJson entries), rest)
      | _ => none
    | _ => none

end

/-! ## Statements -/

/-- A statement of a text. -/
inductive Statement where
  | table (path : List String)
  | element (path : List String)
  | assignment (path : List String) (value : Json)

/-- A statement on a line of its own. -/
def readStatement? (fuel : Nat) : List Char → Option (Statement × List Char)
  | '[' :: '[' :: rest => do
    let (path, cs) ← readPath? rest
    match cs with
    | ']' :: ']' :: rest => return (.element path, ← endLine? rest)
    | _ => none
  | '[' :: rest => do
    let (path, cs) ← readPath? rest
    match cs with
    | ']' :: rest => return (.table path, ← endLine? rest)
    | _ => none
  | cs => do
    let (path, cs) ← readPath? cs
    match cs with
    | '=' :: rest =>
      let (value, cs) ← readValue? fuel maxDepth (skipBlanks rest)
      return (.assignment path value, ← endLine? cs)
    | _ => none

/-- All statements of a text. -/
def readStatements? : Nat → List Char → Option (List Statement)
  | 0, _ => none
  | fuel + 1, cs =>
    match skipLines fuel cs with
    | [] => some []
    | cs => do
      let (statement, rest) ← readStatement? fuel cs
      return statement :: (← readStatements? fuel rest)

/-- The tree so far, and the path of the table that assignments go to. -/
structure Document where
  current : List String := []
  root : Entries := []

/-- Carries out a statement. -/
def Document.perform? (document : Document) : Statement → Option Document
  | .table path => do
    let root ← within (openTable (← path.getLast?)) path.dropLast document.root
    return ⟨path, root⟩
  | .element path => do
    let root ← within (openElement (← path.getLast?)) path.dropLast document.root
    return ⟨path, root⟩
  | .assignment path value => do
    let root ← within (assign value path) document.current document.root
    return { document with root }

/-- The value of a text. -/
def read? (s : String) : Option Json := do
  let cs :=
    match s.toList with
    | '\ufeff' :: rest => rest
    | cs => cs
  let statements ← readStatements? (cs.length + 2) cs
  let document ← statements.foldlM Document.perform? {}
  return .obj (entriesJson document.root)

end Toml

end NestedQuery
