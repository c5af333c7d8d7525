import NestedQuery.Json.Basic
/-!
# Paths into values

A path names a place by the keys on the way to it. `Json.at?` looks it
up, and `Json.writeAt` writes there, making the objects that are missing
on the way. A value on the way that is neither an object nor null blocks
the write, and then nothing changes at all.
-/

namespace NestedQuery

namespace Json

/-- The value at a path; the empty path names the value itself. -/
def at? : Json → List String → Option Json
  | value, [] => some value
  | value, key :: rest => (value.get? key).bind fun inner => inner.at? rest

/-! ## Writing -/

/-- Writes at a path below a record. None if the path is empty or a value on the way blocks it. -/
def writeBelow? (value : Json) : List String → Record → Option Record
  | [], _ => none
  | [key], record => some (record.put key value)
  | key :: next :: rest, record =>
    match record.get? key with
    | none | some null => do
      return record.put key (obj (← writeBelow? value (next :: rest) []))
    | some (obj inner) => do
      return record.put key (obj (← writeBelow? value (next :: rest) inner))
    | some _ => none

/-- Writes at a path below a record; a blocked write and an empty path change nothing. -/
def writeInto (record : Record) (path : List String) (value : Json) : Record :=
  (writeBelow? value path record).getD record

/-- Writes at a path below an object; other values stay as they are. -/
def writeAt (root : Json) (path : List String) (value : Json) : Json :=
  match root with
  | obj fields => obj (writeInto fields path value)
  | other => other

end Json

end NestedQuery
