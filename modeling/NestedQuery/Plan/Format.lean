import NestedQuery.Plan.Task
import NestedQuery.Schema.Format
/-!
# Tasks as values

How a task is written as a JSON value, and read back. All parts are
written; on reading, only the parts that may be absent from a task may
be left out.
-/

namespace NestedQuery

/-! ## Parts of a task -/

namespace TaskKind

/-- The name of a kind. -/
def name : TaskKind → String
  | single => "Single"
  | collection => "Collection"

/-- Reads a kind. -/
def ofJson? (value : Json) : Option TaskKind :=
  (value.choice? .json).bind fun name =>
    if name = "Single" then some single
    else if name = "Collection" then some collection
    else none

end TaskKind

namespace NodePath

/-- The value of a path. -/
def toJson (path : NodePath) : Json :=
  .obj [("keys", .ofTexts path.keys), ("parent_keys", .ofTexts path.parentKeys)]

/-- Reads a path. -/
def ofJson? (value : Json) : Option NodePath := do
  let parts ← value.parts? .json ["keys", "parent_keys"]
  return {
    keys := ← Json.required parts "keys" (Json.listOf? Json.text?)
    parentKeys := ← Json.required parts "parent_keys" (Json.listOf? Json.text?) }

end NodePath

namespace Batch

/-- The value of the batch marks. -/
def toJson (batch : Batch) : Json :=
  .obj [("is_group", .bool batch.isGroup), ("is_batch_parent", .bool batch.underBatch),
    ("is_batch", .bool batch.isBatch)]

/-- Reads batch marks. -/
def ofJson? (value : Json) : Option Batch := do
  let parts ← value.parts? .json ["is_group", "is_batch_parent", "is_batch"]
  return {
    isGroup := ← Json.required parts "is_group" Json.bool?
    underBatch := ← Json.required parts "is_batch_parent" Json.bool?
    isBatch := ← Json.required parts "is_batch" Json.bool? }

end Batch

namespace Link

/-- The value of a link. -/
def toJson (link : Link) : Json :=
  .obj [("local_key", .str link.localKey), ("referenced_model", .str link.model),
    ("referenced_key", .str link.referencedKey), ("reversed", .bool link.reversed)]

/-- Reads a link. -/
def ofJson? (value : Json) : Option Link := do
  let parts ← value.parts? .json ["local_key", "referenced_model", "referenced_key", "reversed"]
  return {
    localKey := ← Json.required parts "local_key" Json.text?
    model := ← Json.required parts "referenced_model" Json.text?
    referencedKey := ← Json.required parts "referenced_key" Json.text?
    reversed := ← Json.required parts "reversed" Json.bool? }

end Link

namespace Field

/-- The value of a field. -/
def toJson (field : Field) : Json :=
  .obj [("source_field", .str field.source), ("alias", .ofOption .str field.alias?),
    ("temporary", .bool field.temporary)]

/-- Reads a field. -/
def ofJson? (value : Json) : Option Field := do
  let parts ← value.parts? .json ["source_field", "alias", "temporary"]
  return {
    source := ← Json.required parts "source_field" Json.text?
    alias? := ← Json.optional parts "alias" Json.text?
    temporary := ← Json.required parts "temporary" Json.bool? }

end Field

namespace Direction

/-- The name of a direction. -/
def name : Direction → String
  | ascending => "asc"
  | descending => "desc"

/-- Reads a direction. -/
def ofJson? (value : Json) : Option Direction :=
  (value.choice? .json).bind fun name =>
    if name = "asc" then some ascending
    else if name = "desc" then some descending
    else none

end Direction

namespace SortKey

/-- The value of a sort key. -/
def toJson (key : SortKey) : Json :=
  .obj [("field", .str key.column), ("direction", .str key.direction.name)]

/-- Reads a sort key. -/
def ofJson? (value : Json) : Option SortKey := do
  let parts ← value.parts? .json ["field", "direction"]
  return {
    column := ← Json.required parts "field" Json.text?
    direction := ← Json.required parts "direction" Direction.ofJson? }

end SortKey

namespace Page

/-- The value of a page. -/
def toJson (page : Page) : Json :=
  .obj [("enabled", .bool page.enabled), ("offset", .ofNat page.offset),
    ("limit", .ofNat page.limit)]

/-- Reads a page. -/
def ofJson? (value : Json) : Option Page := do
  let parts ← value.parts? .json ["enabled", "offset", "limit"]
  return {
    enabled := ← Json.required parts "enabled" Json.bool?
    offset := ← Json.required parts "offset" Json.nat?
    limit := ← Json.required parts "limit" Json.nat? }

end Page

namespace Filter

/-- The value of a filter. -/
def toJson (filter : Filter) : Json :=
  .obj (filter.entries.map fun (column, constraint) => (column, constraint.toJson))

/-- Reads the entries of a filter. -/
def readEntries? : Record → Option (List (String × Constraint))
  | [] => some []
  | (column, value) :: rest => do
    let constraint ← Constraint.ofJson? value
    return (column, constraint) :: (← readEntries? rest)

/-- Reads a filter. -/
def ofJson? (value : Json) : Option Filter :=
  value.record?.bind fun fields => (readEntries? fields).map SortedMap.ofList

end Filter

/-! ## Tasks -/

namespace Task

/-- The names of the parts of a task, in order. -/
def partNames : List String :=
  ["model", "kind", "parser", "executor", "path", "batch", "is_union", "foreign_link", "fields",
    "sort", "pagination", "filter", "join_columns", "child_count", "errors"]

/-- The value of a task. -/
def toJson (task : Task) : Json :=
  .obj [("model", .str task.model), ("kind", .str task.kind.name), ("parser", .str task.parser),
    ("executor", .str task.executor), ("path", task.path.toJson), ("batch", task.batch.toJson),
    ("is_union", .bool task.isNested), ("foreign_link", .ofOption Link.toJson task.link),
    ("fields", .ofOption (.ofList Field.toJson) task.fields),
    ("sort", .ofOption (.ofList SortKey.toJson) task.sort),
    ("pagination", .ofOption Page.toJson task.page),
    ("filter", .ofOption Filter.toJson task.filter),
    ("join_columns", .ofTexts task.joinColumns), ("child_count", .ofNat task.childCount),
    ("errors", .ofTexts task.errors)]

/-- Reads a task. -/
def ofJson? (value : Json) : Option Task := do
  let parts ← value.parts? .json partNames
  return {
    model := ← Json.required parts "model" Json.text?
    kind := ← Json.required parts "kind" TaskKind.ofJson?
    parser := ← Json.required parts "parser" Json.text?
    executor := ← Json.required parts "executor" Json.text?
    path := ← Json.required parts "path" NodePath.ofJson?
    batch := ← Json.required parts "batch" Batch.ofJson?
    isNested := ← Json.required parts "is_union" Json.bool?
    link := ← Json.optional parts "foreign_link" Link.ofJson?
    fields := ← Json.optional parts "fields" (Json.listOf? Field.ofJson?)
    sort := ← Json.optional parts "sort" (Json.listOf? SortKey.ofJson?)
    page := ← Json.optional parts "pagination" Page.ofJson?
    filter := ← Json.optional parts "filter" Filter.ofJson?
    joinColumns := ← Json.required parts "join_columns" (Json.listOf? Json.text?)
    childCount := ← Json.required parts "child_count" Json.nat?
    errors := ← Json.required parts "errors" (Json.listOf? Json.text?) }

end Task

end NestedQuery
