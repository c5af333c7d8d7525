import NestedQuery.Plan.Task
/-!
# Shaping records

A record is cut to the listed fields by their source names when it is
fetched. Only after it was indexed does it take its final shape: the
temporary fields are dropped, and each aliased field is renamed, one
after the other. A renamed field moves to the end of its record.
-/

namespace NestedQuery

namespace Record

/-- The fields of a record that are listed, in the order of the listing; all without a listing. -/
def project (record : Record) : Option (List Field) → Record
  | none => record
  | some fields =>
    Keyed.ofWrites (fields.filterMap fun field =>
      (record.get? field.source).map fun value => (field.source, value))

/-- Takes the value under a key away and writes it under another; a missing value reads as null. -/
def rename (record : Record) (source name : String) : Record :=
  (record.erase source).put name ((record.get? source).getD .null)

end Record

/-- The final shape of a record of a task. -/
def Task.finish (task : Task) (record : Record) : Record :=
  -- temporary fields first: an alias may carry the name of one
  task.aliases.foldl (fun record entry => Record.rename record entry.1 entry.2)
    (task.temporarySources.foldl Keyed.erase record)

end NestedQuery
