import NestedQuery.Json.Basic
/-!
# Reading structured values

How the parts of a structured value are found. An object gives them by
name, and names that nobody asks for are ignored; a list gives them by
position. A required part must be there, a part with a default may be
left out but not be null, and an optional part may be either. Nothing is
coerced.

Two things depend on the dialect in which a value was written: whether a
list may hold more than there are parts, and how a plain choice is
written as an object.
-/

namespace NestedQuery

namespace Json

/-! ## Dialects -/

/-- What a value was written in. -/
inductive Dialect where
  | json
  | toml
deriving DecidableEq

/-- Whether a list may hold more than there are parts. What is too much is ignored. -/
def Dialect.allowsSurplus : Dialect → Bool
  | json => false
  | toml => true

/-- Whether a value says nothing beyond the name it stands under. TOML has no null, and uses an
empty table or an empty array instead. -/
def Dialect.isVoid : Dialect → Json → Bool
  | json, null => true
  | toml, obj [] | toml, arr [] => true
  | _, _ => false

/-! ## Parts -/

variable {α : Type}

/-- The parts of a structured value by name, given the names in order of position. -/
def parts? (dialect : Dialect) (names : List String) : Json → Option Record
  | obj fields => some fields
  | arr items =>
    if items.length ≤ names.length ∨ dialect.allowsSurplus then some (names.zip items) else none
  | _ => none

/-- A part that must be there. -/
def required (parts : Record) (name : String) (read : Json → Option α) : Option α :=
  (parts.get? name).bind read

/-- A part that has a default. -/
def defaulted (parts : Record) (name : String) (default : α) (read : Json → Option α) : Option α :=
  match parts.get? name with
  | none => some default
  | some value => read value

/-- A part that may be left out or null. -/
def optional (parts : Record) (name : String) (read : Json → Option α) : Option (Option α) :=
  match parts.get? name with
  | none | some null => some none
  | some value => (read value).map some

/-- A list of which each item is read alike. -/
def listOf? (read : Json → Option α) : Json → Option (List α)
  | arr items => items.mapM read
  | _ => none

/-- The name of one of several plain choices. -/
def choice? (dialect : Dialect) : Json → Option String
  | str name => some name
  | obj [(name, value)] => if dialect.isVoid value then some name else none
  | _ => none

/-! ## Writing -/

/-- The value of an optional part. -/
def ofOption (write : α → Json) : Option α → Json
  | some value => write value
  | none => null

/-- The value of a list. -/
def ofList (write : α → Json) (values : List α) : Json := arr (values.map write)

/-- The value of a list of texts. -/
def ofTexts (texts : List String) : Json := ofList str texts

end Json

end NestedQuery
