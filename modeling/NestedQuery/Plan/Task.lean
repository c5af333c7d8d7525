import NestedQuery.Plan.Constraint
import NestedQuery.Schema.Catalog
import NestedQuery.Text
/-!
# Tasks

A task is the compiled work for one node of a request. Tasks do not
point at each other: where a task stands is said by its path, and the
tasks of a subtree follow its root in a list, `childCount` of them.

A task that joins to its parent has a link, and from the start a filter
into which the join constraint goes. `joinColumns` are indexed once the
records are there, so that descendants can join to them; a task that
lists its fields fetches them too, as temporary fields that are dropped
before anybody sees the records (`addJoinFields`).
-/

namespace NestedQuery

/-! ## Parts of a task -/

/-- Whether a node stands for one record or for a list. -/
inductive TaskKind where
  | single
  | collection
deriving DecidableEq, Inhabited

/-- Where a node stands: its own segments, below the full path of its parent. -/
structure NodePath where
  keys : List String
  parentKeys : List String := []
deriving DecidableEq, Inhabited

namespace NodePath

/-- The segments from the root. -/
def full (path : NodePath) : List String := path.parentKeys ++ path.keys

/-- The dotted text of the full path. -/
def text (path : NodePath) : String := Text.dotted path.full

/-- The dotted text of the parent's path. -/
def parentText (path : NodePath) : String := Text.dotted path.parentKeys

end NodePath

/-- How many records a node may be about. -/
structure Batch where
  /-- The node itself stands for a list. -/
  isGroup : Bool := false
  /-- The parent may have several records. -/
  underBatch : Bool := false
  /-- The node may have several records. -/
  isBatch : Bool := false
deriving DecidableEq, Inhabited

/-- A field to fetch. A temporary one is needed for joins only. -/
structure Field where
  source : String
  alias? : Option String := none
  temporary : Bool := false
deriving DecidableEq, Inhabited

/-- A direction of sorting. -/
inductive Direction where
  | ascending
  | descending
deriving DecidableEq, Inhabited

/-- A column to sort by. -/
structure SortKey where
  column : String
  direction : Direction
deriving DecidableEq, Inhabited

/-- A page of a list. -/
structure Page where
  enabled : Bool
  offset : Nat
  limit : Nat
deriving DecidableEq, Inhabited

/-! ## Tasks -/

/-- The compiled work for one node of a request. -/
structure Task where
  model : String
  kind : TaskKind
  parser : String
  executor : String
  path : NodePath
  batch : Batch
  /-- The node stands below another. -/
  isNested : Bool
  link : Option Link := none
  fields : Option (List Field) := none
  sort : Option (List SortKey) := none
  page : Option Page := none
  filter : Option Filter := none
  joinColumns : List String := []
  childCount : Nat := 0
  errors : List String := []
deriving Inhabited

namespace Task

/-- Adds a column to index, unless it is there. -/
def addJoinColumn (task : Task) (column : String) : Task :=
  if column ∈ task.joinColumns then task
  else { task with joinColumns := task.joinColumns ++ [column] }

/-- The task of a node, before anything inside the node is read. -/
def start (resolved : Resolved) (key : String) (parent : Option Task) (link : Option Link) :
    Task :=
  let underBatch := (parent.map fun p => p.batch.isBatch).getD false
  let task : Task :=
    { model := resolved.model.name
      kind := if resolved.isGroup then .collection else .single
      parser := resolved.model.parser
      executor := resolved.model.executor
      path := ⟨[key], (parent.map fun p => p.path.full).getD []⟩
      batch := ⟨resolved.isGroup, underBatch, resolved.isGroup || underBatch⟩
      isNested := parent.isSome
      joinColumns := resolved.model.specialColumns.map Column.key }
  match link with
  | none => task
  | some link =>
    { task.addJoinColumn link.localKey with link := some link, filter := some .empty }

/-- The task of a node at the top whose model was not found. -/
def unresolved (model key error : String) : Task :=
  { model, kind := .single, parser := "", executor := "", path := ⟨[key], []⟩, batch := {}
    isNested := false, errors := [error] }

/-- A task with an error has no result. -/
def isFailed (task : Task) : Bool := !task.errors.isEmpty

/-- Constrains a column, in place of an earlier constraint on it. -/
def constrain (task : Task) (column : String) (constraint : Constraint) : Task :=
  { task with filter := some ((task.filter.getD .empty).insert column constraint) }

/-- Adds fields for columns whose source is not listed, in order, as temporary fields. -/
def withTemporary (fields : List Field) : List String → List Field
  | [] => fields
  | column :: rest =>
    if fields.any fun field => field.source = column then withTemporary fields rest
    else withTemporary (fields ++ [{ source := column, temporary := true }]) rest

/-- Makes a listing of fields fetch every column to index. -/
def addJoinFields (task : Task) : Task :=
  { task with fields := task.fields.map fun fields => withTemporary fields task.joinColumns }

/-- The sources of the temporary fields. -/
def temporarySources (task : Task) : List String :=
  ((task.fields.getD []).filter Field.temporary).map Field.source

/-- The source and the alias of each field that has one. -/
def aliases (task : Task) : List (String × String) :=
  (task.fields.getD []).filterMap fun field => field.alias?.map fun name => (field.source, name)

end Task

end NestedQuery
