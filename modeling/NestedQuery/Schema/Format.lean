import NestedQuery.Json.Format
import NestedQuery.Schema.Model
import NestedQuery.Schema.Settings
/-!
# Models and settings as values

How models and settings are written as JSON values, and read back from
the values of either dialect. What is written is complete; what is read
may leave out whatever has a default. `boolean` is read as another name
of the type `bool`, and never written.
-/

namespace NestedQuery

/-! ## Models -/

namespace ColumnType

/-- The value of a column type. -/
def toJson (type : ColumnType) : Json := .str type.name

/-- The column type of a name. -/
def ofName? (name : String) : Option ColumnType :=
  if name = "bool" ∨ name = "boolean" then some bool
  else if name = "string" then some string
  else if name = "number" then some number
  else if name = "object" then some object
  else none

/-- Reads a column type. -/
def ofJson? (dialect : Json.Dialect) (value : Json) : Option ColumnType :=
  (value.choice? dialect).bind ofName?

end ColumnType

namespace Column

/-- The value of a column. -/
def toJson (column : Column) : Json :=
  .obj [("key", .str column.key), ("type", column.type.toJson),
    ("desc", .str column.description), ("is_primary", .bool column.isPrimary),
    ("is_foreign", .bool column.isForeign)]

/-- Reads a column. -/
def ofJson? (dialect : Json.Dialect) (value : Json) : Option Column := do
  let parts ← value.parts? dialect ["key", "type", "desc", "is_primary", "is_foreign"]
  return {
    key := ← Json.required parts "key" Json.text?
    type := ← Json.required parts "type" (ColumnType.ofJson? dialect)
    description := ← Json.defaulted parts "desc" "" Json.text?
    isPrimary := ← Json.defaulted parts "is_primary" false Json.bool?
    isForeign := ← Json.defaulted parts "is_foreign" false Json.bool? }

end Column

namespace Relation

/-- The value of a relation. -/
def toJson (relation : Relation) : Json :=
  .obj [("local_key", .str relation.localKey), ("referenced_model", .str relation.model),
    ("referenced_key", .str relation.referencedKey)]

/-- Reads a relation. -/
def ofJson? (dialect : Json.Dialect) (value : Json) : Option Relation := do
  let parts ← value.parts? dialect ["local_key", "referenced_model", "referenced_key"]
  return {
    localKey := ← Json.required parts "local_key" Json.text?
    model := ← Json.required parts "referenced_model" Json.text?
    referencedKey := ← Json.required parts "referenced_key" Json.text? }

end Relation

namespace Model

/-- The value of a model. -/
def toJson (model : Model) : Json :=
  .obj [("name", .str model.name), ("group_name", .str model.groupName),
    ("desc", .str model.description), ("columns", .ofList Column.toJson model.columns),
    ("foreigns", .ofList Relation.toJson model.relations), ("parser", .str model.parser),
    ("executor", .str model.executor), ("extra", .obj model.extra)]

/-- Reads a model. -/
def ofJson? (dialect : Json.Dialect) (value : Json) : Option Model := do
  let parts ← value.parts? dialect
    ["name", "group_name", "desc", "columns", "foreigns", "parser", "executor", "extra"]
  return {
    name := ← Json.required parts "name" Json.text?
    groupName := ← Json.required parts "group_name" Json.text?
    description := ← Json.defaulted parts "desc" "" Json.text?
    columns := ← Json.required parts "columns" (Json.listOf? (Column.ofJson? dialect))
    relations := ← Json.defaulted parts "foreigns" [] (Json.listOf? (Relation.ofJson? dialect))
    parser := ← Json.defaulted parts "parser" "default" Json.text?
    executor := ← Json.defaulted parts "executor" "default" Json.text?
    extra := ← Json.defaulted parts "extra" [] Json.record? }

end Model

/-! ## Settings -/

namespace DirectiveKeys

/-- The value of the directive keys. -/
def toJson (keys : DirectiveKeys) : Json :=
  .obj [("model", .str keys.model), ("field", .str keys.field), ("sort", .str keys.sort),
    ("pagination", .str keys.pagination)]

/-- Reads directive keys. -/
def ofJson? (dialect : Json.Dialect) (value : Json) : Option DirectiveKeys := do
  let parts ← value.parts? dialect ["model", "field", "sort", "pagination"]
  return {
    model := ← Json.defaulted parts "model" "@model" Json.text?
    field := ← Json.defaulted parts "field" "@field" Json.text?
    sort := ← Json.defaulted parts "sort" "@sort" Json.text?
    pagination := ← Json.defaulted parts "pagination" "@pagination" Json.text? }

end DirectiveKeys

namespace PageDefaults

/-- The value of the pagination defaults. -/
def toJson (defaults : PageDefaults) : Json :=
  .obj [("key", .str defaults.key), ("offset", .ofNat defaults.offset),
    ("limit", .ofNat defaults.limit)]

/-- Reads pagination defaults. -/
def ofJson? (dialect : Json.Dialect) (value : Json) : Option PageDefaults := do
  let parts ← value.parts? dialect ["key", "offset", "limit"]
  return {
    key := ← Json.defaulted parts "key" "pagination" Json.text?
    offset := ← Json.defaulted parts "offset" 0 Json.nat?
    limit := ← Json.defaulted parts "limit" 10 Json.nat? }

end PageDefaults

namespace Settings

/-- The value of settings. -/
def toJson (settings : Settings) : Json :=
  .obj [("keys", settings.keys.toJson), ("pagination", settings.pagination.toJson)]

/-- Reads settings. -/
def ofJson? (dialect : Json.Dialect) (value : Json) : Option Settings := do
  let parts ← value.parts? dialect ["keys", "pagination"]
  return {
    keys := ← Json.defaulted parts "keys" {} (DirectiveKeys.ofJson? dialect)
    pagination := ← Json.defaulted parts "pagination" {} (PageDefaults.ofJson? dialect) }

end Settings

end NestedQuery
