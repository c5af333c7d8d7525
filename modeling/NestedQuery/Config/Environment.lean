import NestedQuery.Keyed
import NestedQuery.Text
/-!
# Environment files

An environment file gives variables one to a line, as `NAME=value` with
an optional `export` in front. A value may be quoted, and a quoted value
may go on over several lines; a comment follows a blank. Reading stops
at the first line that is none of this, and what was read up to there
stands. `Environment.extend` adds the variables of a file to those that
are set already: a variable keeps the first value it got.
-/

namespace NestedQuery

/-- Variables by name. -/
abbrev Environment := Keyed String

namespace Environment

/-! ## Lines -/

/-- Where a line may break: between words, in quotes, behind a backslash, or in a comment. -/
inductive Place where
  | word
  | blank
  | escape
  | inDouble
  | inDoubleEscape
  | inSingle
  | inSingleEscape
  | comment
deriving DecidableEq

/-- The place behind a character. -/
def Place.next (place : Place) (c : Char) : Place :=
  match place with
  | .blank =>
    if c = '#' then .comment
    else if c = '\\' then .escape
    else if c = '"' then .inDouble
    else if c = '\'' then .inSingle
    else .word
  | .word =>
    if Text.isBlank c ∧ c ≠ '\n' ∧ c ≠ '\r' then .blank
    else if c = '\\' then .escape
    else if c = '"' then .inDouble
    else if c = '\'' then .inSingle
    else .word
  | .escape => .word
  | .inDouble => if c = '\\' then .inDoubleEscape else if c = '"' then .word else .inDouble
  | .inDoubleEscape => .inDouble
  | .inSingle => if c = '\\' then .inSingleEscape else if c = '\'' then .word else .inSingle
  | .inSingleEscape => .inSingle
  | .comment => .comment

/-- A line with its line break, and the text behind it. -/
def splitLine (cs : List Char) : List Char × List Char :=
  match cs.dropWhile (· ≠ '\n') with
  | [] => (cs, [])
  | _ :: rest => (cs.takeWhile (· ≠ '\n') ++ ['\n'], rest)

/-- A line up to where its comment starts, and the place at its end. -/
def scanLine : Place → List Char → List Char × Place
  | place, [] => ([], place)
  | place, c :: rest =>
    if place.next c = .comment then ([], .comment)
    else
      let (kept, last) := scanLine (place.next c) rest
      (c :: kept, last)

/-- Whether the first character that is no blank starts a comment. -/
def startsComment (cs : List Char) : Bool := (cs.dropWhile Text.isBlank).head? = some '#'

/-- The lines of a text, those broken within quotes put together, with their line breaks. None
stands for a text that ends within quotes; nothing follows it. -/
def logicalLines : Nat → List Char → Place → List Char → List (Option (List Char))
  | 0, _, _, _ => []
  -- the text ends here; only between words is that an end
  | _ + 1, _, place, [] => if place = .word then [] else [none]
  | fuel + 1, before, place, cs =>
    let (line, rest) := splitLine cs
    if startsComment (before ++ line) then some [] :: logicalLines fuel [] .word rest
    else
      match scanLine place line with
      | (_, .word) => some (before ++ line) :: logicalLines fuel [] .word rest
      | (kept, .comment) => some (before ++ kept) :: logicalLines fuel [] .word rest
      | (_, place) => logicalLines fuel (before ++ line) place rest

/-! ## Assignments -/

/-- A name: a letter or underscore, then letters, digits, underscores and points. -/
def readName? (cs : List Char) : Option (String × List Char) :=
  let isPart := fun (c : Char) => c.isAlphanum || c = '_' || c = '.'
  match cs with
  | c :: _ =>
    if c.isAlpha ∨ c = '_' then some (String.ofList (cs.takeWhile isPart), cs.dropWhile isPart)
    else none
  | [] => none

/-- How the characters of a value are read. -/
inductive Quote where
  | bare
  | bareEscape
  | double
  | doubleEscape
  | single
  | done
deriving DecidableEq

/-- The character meant by an escape. -/
def escaped? (c : Char) : Option Char :=
  if c = 'n' then some '\n'
  else if c = '\\' ∨ c = '\'' ∨ c = '"' ∨ c = '$' ∨ c = ' ' then some c
  else none

/-- The text of a value. Quotes may open and close anywhere in it, and a blank outside of them ends
it; only a comment may follow. -/
def readText? : Quote → List Char → Option (List Char)
  | .double, [] | .doubleEscape, [] | .single, [] => none
  | .bare, [] | .bareEscape, [] | .done, [] => some []
  | .done, c :: rest =>
    if c = ' ' ∨ c = '\t' then readText? .done rest
    else if c = '#' then some []
    else none
  | .bareEscape, c :: rest => do return (← escaped? c) :: (← readText? .bare rest)
  | .doubleEscape, c :: rest => do return (← escaped? c) :: (← readText? .double rest)
  | .single, c :: rest =>
    if c = '\'' then readText? .bare rest
    else do return c :: (← readText? .single rest)
  | .double, c :: rest =>
    if c = '"' then readText? .bare rest
    else if c = '\\' then readText? .doubleEscape rest
    else do return c :: (← readText? .double rest)
  | .bare, c :: rest =>
    if c = '\'' then readText? .single rest
    else if c = '"' then readText? .double rest
    else if c = '\\' then readText? .bareEscape rest
    else if c = ' ' ∨ c = '\t' then readText? .done rest
    else do return c :: (← readText? .bare rest)

/-- The text behind blanks. -/
def skipBlanks (cs : List Char) : List Char := cs.dropWhile Text.isBlank

/-- The value behind an equals sign. -/
def readValue? (cs : List Char) : Option String :=
  match skipBlanks cs with
  | '=' :: rest =>
    match skipBlanks rest with
    | [] => some ""
    | '#' :: _ => some ""
    | cs => (readText? .bare cs).map String.ofList
  | _ => none

/-- The assignment of a line, or none inside for a line without one. Blanks at the end of the line
do not count, not even behind a backslash. -/
def readLine? (line : List Char) : Option (Option (String × String)) :=
  match Text.trimChars line with
  | [] => some none
  | '#' :: _ => some none
  | cs => do
    let (name, rest) ← readName? cs
    if name = "export" ∧ (skipBlanks rest).head? ≠ some '=' then
      let (name, rest) ← readName? (skipBlanks rest)
      return some (name, ← readValue? rest)
    else return some (name, ← readValue? rest)

/-- The assignments up to the first line that is none. -/
def readLines : List (Option (List Char)) → List (String × String)
  | [] => []
  | line :: rest =>
    match line.bind readLine? with
    | none => []
    | some none => readLines rest
    | some (some assignment) => assignment :: readLines rest

/-- The assignments of a text. -/
def assignments (s : String) : List (String × String) :=
  let cs :=
    match s.toList with
    | '\ufeff' :: rest => rest
    | cs => cs
  readLines (logicalLines (cs.length + 1) [] .word cs)

/-- Adds the variables of a text; those that are set keep their value. -/
def extend (environment : Environment) (s : String) : Environment :=
  (assignments s).foldl
    (fun environment (name, value) =>
      if environment.has name then environment else environment.put name value)
    environment

end Environment

end NestedQuery
