import NestedQuery.Json.Order
import NestedQuery.Schema.Model
import NestedQuery.SortedMap
/-!
# Constraints

What a request may ask of a column: one value, or any of several. A
constraint is made in two ways. A column type *accepts* a value that a
request gives for it, and the key of a parent record is *taken* as the
constraint on its children; null then asks for nothing, and a list asks
for any of its items. `Constraint.admits` says which column values a
constraint lets through, and a filter lets a record through if every
constrained column is there and admitted.
-/

namespace NestedQuery

/-- A constraint on one column. -/
inductive Constraint where
  | bool (value : Bool)
  | number (value : Number)
  | string (value : String)
  | object (fields : Record)
  | anyOf (options : List Constraint)
deriving Inhabited

namespace Constraint

/-! ## Constraints of keys -/

mutual

/-- The constraint that a key puts on the records joined to it; null puts none. -/
def ofKey? : Json → Option Constraint
  | .null => none
  | .bool b => some (bool b)
  | .num n => some (number n)
  | .str s => some (string s)
  | .obj fields => some (object fields)
  | .arr items => some (anyOf (ofKeys items))

/-- The constraints of a list of keys, without those that put none. -/
def ofKeys : List Json → List Constraint
  | [] => []
  | key :: rest =>
    match ofKey? key with
    | some constraint => constraint :: ofKeys rest
    | none => ofKeys rest

end

/-- The constraint to be joined to any of several keys. -/
def anyOfKeys (keys : List Json) : Constraint := anyOf (ofKeys keys)

/-! ## What a constraint admits -/

mutual

/-- Whether a column value satisfies a constraint. -/
def admits : Constraint → Json → Bool
  | bool a, .bool b => a == b
  | number a, .num b => a.order b == .eq
  | string a, .str b => a == b
  | object a, .obj b => (Json.obj a).same (.obj b)
  | anyOf options, value => anyAdmits options value
  | _, _ => false

/-- Whether a column value satisfies one of several constraints. -/
def anyAdmits : List Constraint → Json → Bool
  | [], _ => false
  | option :: rest, value => option.admits value || anyAdmits rest value

end

/-! ## Constraints as values -/

mutual

/-- The value that writes a constraint. -/
def toJson : Constraint → Json
  | bool b => .bool b
  | number n => .num n
  | string s => .str s
  | object fields => .obj fields
  | anyOf options => .arr (toJsons options)

/-- The values that write several constraints. -/
def toJsons : List Constraint → List Json
  | [] => []
  | option :: rest => option.toJson :: toJsons rest

end

mutual

/-- The constraint that a value writes; null writes none, alone or in a list. -/
def ofJson? : Json → Option Constraint
  | .null => none
  | .bool b => some (bool b)
  | .num n => some (number n)
  | .str s => some (string s)
  | .obj fields => some (object fields)
  | .arr items => (ofJsons? items).map anyOf

/-- The constraints that several values write, if each writes one. -/
def ofJsons? : List Json → Option (List Constraint)
  | [] => some []
  | value :: rest =>
    match ofJson? value, ofJsons? rest with
    | some constraint, some more => some (constraint :: more)
    | _, _ => none

end

end Constraint

/-! ## Constraints of a column type -/

namespace ColumnType

/-- The constraint that a value of this type writes; a value of another type is refused. -/
def accept? : ColumnType → Json → Option Constraint
  | bool, .bool b => some (.bool b)
  | string, .str s => some (.string s)
  | number, .num n => some (.number n)
  | object, .obj fields => some (.object fields)
  | _, _ => none

/-- The constraint to be any of several values, if each is of this type. -/
def acceptAnyOf? (type : ColumnType) (values : List Json) : Option Constraint :=
  (values.mapM type.accept?).map .anyOf

end ColumnType

/-! ## Filters -/

/-- Constraints by column, in ascending order of the columns. -/
abbrev Filter := SortedMap Constraint

/-- Whether every constrained column of a record is there and admitted. -/
def Filter.admits (filter : Filter) (record : Record) : Bool :=
  filter.entries.all fun (column, constraint) =>
    match record.get? column with
    | some value => constraint.admits value
    | none => false

end NestedQuery
