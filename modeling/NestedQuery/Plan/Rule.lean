import NestedQuery.Plan.Fault
import NestedQuery.Plan.Task
/-!
# Rules

A key inside a node is a directive, a column, or the name of a nested
node. The first two have a rule, which reads the value under the key and
compiles it into the task. A directive key wins over a column of the
same name; of two directives on one key the later in the order model,
field, sort, pagination wins.

A rule hands back the task as it leaves it, and beside it the fault that
stopped it, if one did.
-/

namespace NestedQuery

/-- What a key of a node means. -/
inductive Rule where
  | model
  | field
  | sort
  | pagination
  | column (type : ColumnType)
deriving DecidableEq

/-- The rule of a key in a node of a model; a key without rule names a nested node. -/
def Model.rule? (model : Model) (keys : DirectiveKeys) (key : String) : Option Rule :=
  if key = keys.pagination then some .pagination
  else if key = keys.sort then some .sort
  else if key = keys.field then some .field
  else if key = keys.model then some .model
  else (model.columns.reverse.find? fun column => column.key = key).map fun column =>
    .column column.type

namespace Rule

/-! ## Lists in a text -/

/-- The entries of a comma-separated text: trimmed, without empty ones. -/
def entries (spec : String) : List String :=
  ((Text.pieces ',' spec).map Text.trim).filter (· ≠ "")

/-! ## Fields -/

/-- The source and the alias of an entry; an empty alias is none. -/
def fieldParts (entry : String) : String × Option String :=
  match Text.cut? ':' entry with
  | none => (entry, none)
  | some (source, name) =>
    (Text.trim source, if Text.trim name = "" then none else some (Text.trim name))

/-- Reads entries into fields, given the names taken by earlier ones. A source and an alias each
take their name, and no name is taken twice. -/
def readFields (model : Model) : List String → List String → Except RuleFault (List Field)
  | _, [] => .ok []
  | taken, entry :: rest =>
    let (source, name?) := fieldParts entry
    if source = "" then .error (.missingFieldName entry)
    else if source ∈ taken then .error (.duplicateField source)
    else match name? with
      | none => do
        let more ← readFields model (source :: taken) rest
        return { source } :: more
      | some name =>
        if name = source ∨ name ∈ taken then .error (.duplicateAlias name)
        else if model.hasColumn name then .error (.aliasShadowsColumn name)
        else do
          -- both names are taken: a later entry may use neither
          let more ← readFields model (source :: name :: taken) rest
          return { source, alias? := some name } :: more

/-- The fields to fetch for a listing: those listed, and the special columns among the rest as
temporary ones. -/
def withSpecial (model : Model) (listed : List Field) : List Field :=
  listed ++ (model.specialColumns.filter fun column =>
      !listed.any fun field => field.source = column.key).map fun column =>
    { source := column.key, temporary := true }

/-- The field directive: a list of sources, each with an alias behind a colon or without. -/
def applyField (model : Model) (value : Json) (task : Task) : Task × Option RuleFault :=
  match value with
  | .str spec =>
    match entries spec with
    | [] => (task, some .emptyFieldList)
    | listed =>
      match readFields model [] listed with
      | .error fault => (task, some fault)
      | .ok fields => ({ task with fields := some (withSpecial model fields) }, none)
  | _ => (task, some .notAString)

/-! ## Sorting -/

/-- The column and direction of an entry; a leading minus means descending. -/
def sortKey (entry : String) : SortKey :=
  match Text.afterMark? '-' entry with
  | some name => ⟨Text.trim name, .descending⟩
  | none => ⟨entry, .ascending⟩

/-- The sort directive: a list of columns; what is no column is dropped. -/
def applySort (model : Model) (value : Json) (task : Task) : Task × Option RuleFault :=
  match value with
  | .str spec =>
    let keys := ((entries spec).map sortKey).filter fun key => model.hasColumn key.column
    ({ task with sort := some keys }, none)
  | _ => (task, some .notAString)

/-! ## Pagination -/

/-- A count among the options of a pagination directive. -/
def readCount (options : Record) (name : String) (default : Nat) : Except RuleFault Nat :=
  match options.get? name with
  | none => .ok default
  | some value =>
    match value.nat? with
    | some n => .ok n
    | none => .error (.invalidPagination ("'" ++ name ++ "' must be a non-negative integer"))

/-- The page that a pagination directive asks for. -/
def readPage (defaults : PageDefaults) : Json → Except RuleFault Page
  | .bool true => .ok ⟨true, defaults.offset, defaults.limit⟩
  | .obj options => do
    let enabled ← match Keyed.get? options "enabled" with
      | none => .ok true
      | some (.bool b) => .ok b
      | some _ => .error (.invalidPagination "'enabled' must be a boolean")
    let offset ← readCount options "offset" defaults.offset
    let limit ← readCount options "limit" defaults.limit
    return ⟨enabled, offset, limit⟩
  | _ => .error (.invalidPagination "expected true or an object")

/-- The path of a task on an enabled page: one more segment, unless it is there. -/
def pagedPath (defaults : PageDefaults) (page : Page) (path : NodePath) : NodePath :=
  if page.enabled ∧ defaults.key ∉ path.keys then
    { path with keys := path.keys ++ [defaults.key] }
  else path

/-- The pagination directive: true, or an object of options. -/
def applyPagination (defaults : PageDefaults) (value : Json) (task : Task) :
    Task × Option RuleFault :=
  match readPage defaults value with
  | .error fault => (task, some fault)
  | .ok page =>
    -- the path first, then the page; nothing can fail in between
    let task := { task with path := pagedPath defaults page task.path }
    ({ task with page := some page }, none)

/-! ## Columns -/

/-- A value under a column constrains it; a list is any of its items, in a node for a list. -/
def applyColumn (type : ColumnType) (key : String) (value : Json) (task : Task) :
    Task × Option RuleFault :=
  let accepted :=
    match value, task.batch.isGroup with
    | .arr items, true => type.acceptAnyOf? items
    | other, _ => type.accept? other
  match accepted with
  | some constraint => (task.constrain key constraint, none)
  | none => (task, some (.typeMismatch key type))

/-! ## All rules -/

/-- Compiles the value under a key into a task: the task as it is left, and the fault if there is
one. The model directive was read before. -/
def applyTo (rule : Rule) (model : Model) (settings : Settings) (key : String) (value : Json)
    (task : Task) : Task × Option RuleFault :=
  match rule with
  | .model => (task, none)
  | .field => applyField model value task
  | .sort => applySort model value task
  | .pagination => applyPagination settings.pagination value task
  | .column type => applyColumn type key value task

/-- What a rule makes of a task, or the fault that stopped it. -/
def apply (rule : Rule) (model : Model) (settings : Settings) (key : String) (value : Json)
    (task : Task) : Except RuleFault Task :=
  match rule.applyTo model settings key value task with
  | (task, none) => .ok task
  | (_, some fault) => .error fault

end Rule

end NestedQuery
