import NestedQuery.Json.Order
import NestedQuery.Resolve.Outcome
/-!
# Join indices

The records of a task are indexed by the columns that descendants join
to. The index of a column holds the value and the position of each
record that has the column, in order, and for each join key the
positions found under it. A record without the column is skipped, but
its position is not given to another. The index of a single record also
keeps its value as the one key.

The join cache of a request keeps the indices of every task under the
dotted path of the task.
-/

namespace NestedQuery

/-- The index of one column over the records of one task. -/
structure JoinIndex where
  /-- The value of a single record. -/
  single? : Option Json := none
  /-- Value and position of each record that has the column. -/
  entries : List (Json × Nat) := []
  /-- The positions under each join key. -/
  buckets : Keyed (List Nat) := []
deriving Inhabited

namespace JoinIndex

/-- Adds the value of the record at a position. -/
def push (index : JoinIndex) (value : Json) (position : Nat) : JoinIndex :=
  { index with
    entries := index.entries ++ [(value, position)]
    buckets := index.buckets.put value.joinKey
      ((index.buckets.get? value.joinKey).getD [] ++ [position]) }

/-- Indexes further records, the first of which stands at a position. -/
def pushRecords (column : String) : JoinIndex → Nat → List Record → JoinIndex
  | index, _, [] => index
  | index, position, record :: rest =>
    match record.get? column with
    | some value => pushRecords column (index.push value position) (position + 1) rest
    | none => pushRecords column index (position + 1) rest

/-- The index of a list of records. -/
def ofRecords (records : List Record) (column : String) : JoinIndex :=
  pushRecords column {} 0 records

/-- The index of a single record. -/
def ofRecord (record : Record) (column : String) : JoinIndex :=
  match record.get? column with
  | some value => { ({} : JoinIndex).push value 0 with single? := some value }
  | none => {}

/-- The index of what was produced for a task. -/
def ofOutcome (outcome : Outcome) (column : String) : JoinIndex :=
  match outcome with
  | .record fields => ofRecord fields column
  | .records rows => ofRecords rows column
  | .absent | .count _ => {}

/-- The values, in order. -/
def keys (index : JoinIndex) : List Json := index.entries.map Prod.fst

/-- The positions of the records that join to a value. -/
def positionsOf (index : JoinIndex) (value : Json) : List Nat :=
  (index.buckets.get? value.joinKey).getD []

end JoinIndex

/-! ## The cache of a request -/

/-- The indices of the tasks so far: by dotted path, then by column. -/
structure JoinCache where
  slots : Keyed (Keyed JoinIndex) := []
deriving Inhabited

namespace JoinCache

/-- Keeps the indices of a task, in place of those of an earlier task with the same path text. -/
def insert (cache : JoinCache) (path : String) (columns : Keyed JoinIndex) : JoinCache :=
  ⟨cache.slots.put path columns⟩

/-- The indices kept under a path. -/
def slot? (cache : JoinCache) (path : String) : Option (Keyed JoinIndex) := cache.slots.get? path

/-- The index of a column kept under a path. -/
def index? (cache : JoinCache) (path column : String) : Option JoinIndex :=
  (cache.slot? path).bind fun columns => columns.get? column

end JoinCache

end NestedQuery
