import NestedQuery.Json.Order
import NestedQuery.Resolve.Registry
import NestedQuery.Resolve.Shape
/-!
# Stores

A store holds the rows of each model in memory, and its executor serves
tasks from it. The rows a task is about are those its filter admits, in
the order of the table. A query sorts them, takes a page of them if the
task is about several, and cuts them to the fields of the task; a count
counts them; a deletion takes them out of the table. A creation makes a
row of the filter itself. Updates are refused.

Sorting is stable and goes by several columns; a missing value sorts as
null. Values of different kinds, other than null, are not told apart, so
that rows with several kinds in a column need not be ordered as a total
preorder. A sort of such rows is left open: they may come out in any
order, or the sort may give up and end the run. What is said of sorted
rows is said where the columns order them.
-/

namespace NestedQuery

/-- Rows in memory, by model. -/
structure Store where
  tables : Keyed (List Record) := []
deriving Inhabited

/-! ## Order of rows -/

namespace SortKey

/-- The order of two rows by one column. -/
def order (key : SortKey) (a b : Record) : Ordering :=
  let ascending := ((a.get? key.column).getD .null).order ((b.get? key.column).getD .null)
  match key.direction with
  | .ascending => ascending
  | .descending => ascending.swap

/-- The order of two rows by several columns, the first that tells them apart deciding. -/
def orderBy : List SortKey → Record → Record → Ordering
  | [], _, _ => .eq
  | key :: rest, a, b => (key.order a b).then (orderBy rest a b)

end SortKey

namespace Task

/-- Whether a row is one that a task is about. -/
def admits (task : Task) (row : Record) : Bool :=
  match task.filter with
  | some filter => filter.admits row
  | none => true

/-- Rows in the order that a task asks for, where its columns order them. -/
def sorted (task : Task) (rows : List Record) : List Record :=
  match task.sort with
  | some keys => rows.mergeSort fun a b => (SortKey.orderBy keys a b).isLE
  | none => rows

/-- The rows on the page that a task asks for. -/
def paged (task : Task) (rows : List Record) : List Record :=
  match task.page with
  | some page => if page.enabled then (rows.drop page.offset).take page.limit else rows
  | none => rows

/-- The row that a task creates: the values of its filter, by ascending column. -/
def newRow (task : Task) : Record :=
  match task.filter with
  | some filter => filter.entries.map fun (column, constraint) => (column, constraint.toJson)
  | none => []

end Task

namespace Store

/-! ## Tables -/

/-- The rows of a model. -/
def rows (store : Store) (model : String) : List Record := (store.tables.get? model).getD []

/-- Sets the rows of a model. -/
def setRows (store : Store) (model : String) (rows : List Record) : Store :=
  ⟨store.tables.put model rows⟩

/-- Adds rows behind those of a model. -/
def append (store : Store) (model : String) (rows : List Record) : Store :=
  store.setRows model (store.rows model ++ rows)

/-- The rows that a model brings along: the objects in its list `memory` of extra data. -/
def seedRows (model : Model) : List Record :=
  match model.extra.get? "memory" with
  | some (.arr items) => items.filterMap Json.record?
  | _ => []

/-- The store of a catalog, with the rows that its models bring along. -/
def ofCatalog (catalog : Catalog) : Store :=
  catalog.models.foldl (fun store model => store.append model.name (seedRows model)) {}

/-! ## Work -/

/-- The rows that a task is about, in the order of the table. -/
def found (store : Store) (task : Task) : List Record :=
  (store.rows task.model).filter task.admits

/-- Fetches the rows of a task. -/
def select (store : Store) (task : Task) : Outcome :=
  let rows := task.sorted (store.found task)
  if task.batch.isBatch then
    .records ((task.paged rows).map fun row => Record.project row task.fields)
  else match rows with
    | row :: _ => .record (Record.project row task.fields)
    | [] => .absent

/-- Counts the rows of a task. -/
def count (store : Store) (task : Task) : Outcome := .count (store.found task).length

/-- Adds the row that a task creates. -/
def create (store : Store) (task : Task) : Outcome × Store :=
  (if task.batch.isBatch then .records [task.newRow] else .record task.newRow,
    store.append task.model [task.newRow])

/-- Removes the rows of a task, or the first of them if the task is about one. -/
def delete (store : Store) (task : Task) : Outcome × Store :=
  let rows := store.rows task.model
  if task.batch.isBatch then
    (.records (rows.filter task.admits),
      store.setRows task.model (rows.filter fun row => !task.admits row))
  else match rows.find? task.admits with
    -- equal rows behind the first stay
    | some row => (.record row, store.setRows task.model (rows.eraseP task.admits))
    | none => (.absent, store)

/-- Does the work of a task. -/
def execute (operation : Operation) (task : Task) : Attempt Store Outcome := do
  match operation with
  | .query => return (← get).select task
  | .count => return (← get).count task
  | .create => modifyGet fun store => store.create task
  | .delete => modifyGet fun store => store.delete task
  | .update => throw (.notSupported "update is not supported by the memory executor")

/-- The executor of a store. -/
def executor : Executor Store := fun context task _ => execute context.operation task

end Store

end NestedQuery
