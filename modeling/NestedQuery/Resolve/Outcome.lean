import NestedQuery.Json.Printer
import NestedQuery.Plan.Fault
/-!
# Outcomes

What an executor produced for one task: nothing, one record, a list of
records, or a count. Records are named by position; a single record
stands at position 0, and a count has none.
-/

namespace NestedQuery

/-- What an executor produced for one task. -/
inductive Outcome where
  | absent
  | record (fields : Record)
  | records (rows : List Record)
  | count (n : Nat)
deriving Inhabited

namespace Outcome

/-! ## Outcomes and values -/

/-- The records of a list of values, or the first value that is none. -/
def readRecords : List Json → Except Fault (List Record)
  | [] => .ok []
  | .obj fields :: rest => do return fields :: (← readRecords rest)
  | other :: _ => .error (.execution ("expected a record, got " ++ other.compact))

/-- The outcome that a value describes. -/
def ofJson : Json → Except Fault Outcome
  | .null => .ok .absent
  | .obj fields => .ok (.record fields)
  | .arr items => do return .records (← readRecords items)
  | .num n =>
    match n.toNat? with
    | some size => .ok (.count size)
    | none => .error (.execution ("invalid count " ++ n.text))
  | other => .error (.execution ("unexpected executor result " ++ other.compact))

/-- The value that describes an outcome. -/
def toJson : Outcome → Json
  | absent => .null
  | record fields => .obj fields
  | records rows => .arr (rows.map .obj)
  | count n => .ofNat n

/-! ## Records -/

/-- Whether nothing was produced. -/
def isAbsent : Outcome → Bool
  | absent => true
  | _ => false

/-- How much there is: a single record and a count are one each. -/
def size : Outcome → Nat
  | absent => 0
  | record _ => 1
  | records rows => rows.length
  | count _ => 1

/-- The record at a position. -/
def record? : Outcome → Nat → Option Record
  | record fields, 0 => some fields
  | records rows, position => rows[position]?
  | _, _ => none

/-- Changes the record at a position, if there is one. -/
def modifyAt (f : Record → Record) : Outcome → Nat → Outcome
  | record fields, 0 => record (f fields)
  | records rows, position => records (rows.modify position f)
  | other, _ => other

/-- Changes every record. -/
def mapRecords (f : Record → Record) : Outcome → Outcome
  | record fields => record (f fields)
  | records rows => records (rows.map f)
  | other => other

end Outcome

end NestedQuery
