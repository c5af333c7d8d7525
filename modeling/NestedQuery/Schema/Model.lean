import NestedQuery.Json.Basic
/-!
# Models

A model describes one table: its columns, the relations it declares to
other models, and the names of the parser and the executor that serve
it. It answers to two names, its own for one record and its group name
for a list of them. Two models are linked if either declares a relation
to the other; the link says which column of the child carries the values
of which column of the parent.
-/

namespace NestedQuery

/-! ## Columns -/

/-- The declared type of a column. -/
inductive ColumnType where
  | bool
  | string
  | number
  | object
deriving DecidableEq, Inhabited

/-- The name of a column type. -/
def ColumnType.name : ColumnType → String
  | .bool => "bool"
  | .string => "string"
  | .number => "number"
  | .object => "object"

/-- A declared column. -/
structure Column where
  key : String
  type : ColumnType
  description : String := ""
  isPrimary : Bool := false
  isForeign : Bool := false
deriving DecidableEq, Inhabited

/-- Primary and foreign columns are special: they are indexed for every fetched record. -/
def Column.isSpecial (column : Column) : Bool := column.isPrimary || column.isForeign

/-! ## Models -/

/-- A declared relation: a column of the declaring model refers to a column of another. -/
structure Relation where
  localKey : String
  model : String
  referencedKey : String
deriving DecidableEq, Inhabited

/-- The description of a table. -/
structure Model where
  name : String
  groupName : String
  description : String := ""
  columns : List Column := []
  relations : List Relation := []
  parser : String := "default"
  executor : String := "default"
  /-- Data for the executor; its meaning is the executor's own. -/
  extra : Record := []
deriving Inhabited

namespace Model

/-- The name of a model as one record, or as a list. -/
def nameAs (model : Model) (isGroup : Bool) : String :=
  if isGroup then model.groupName else model.name

/-- The first column of a key. -/
def column? (model : Model) (key : String) : Option Column :=
  model.columns.find? fun column => column.key = key

/-- Whether a key is a column. -/
def hasColumn (model : Model) (key : String) : Bool := (model.column? key).isSome

/-- The special columns, in order of declaration. -/
def specialColumns (model : Model) : List Column := model.columns.filter Column.isSpecial

/-- The first relation declared to a model. -/
def relationTo? (model : Model) (other : String) : Option Relation :=
  model.relations.find? fun relation => relation.model = other

/-! ### Building -/

/-- Adds a column behind the others. -/
def addColumn (model : Model) (column : Column) : Model :=
  { model with columns := model.columns ++ [column] }

/-- Adds a relation behind the others. -/
def addRelation (model : Model) (relation : Relation) : Model :=
  { model with relations := model.relations ++ [relation] }

/-- Writes a piece of data for the executor. -/
def putExtra (model : Model) (key : String) (value : Json) : Model :=
  { model with extra := model.extra.put key value }

end Model

/-! ## Links -/

/-- The join between a child and its parent: the child's records carry in `localKey` a value that
the parent's records carry in `referencedKey`. A link is reversed if the parent declares the
relation. -/
structure Link where
  localKey : String
  model : String
  referencedKey : String
  reversed : Bool
deriving DecidableEq, Inhabited

/-- The link of a child to its parent. The child's own relation comes first; otherwise a relation
of the parent is read backwards. -/
def Model.link? (child parent : Model) : Option Link :=
  match child.relationTo? parent.name with
  | some relation => some ⟨relation.localKey, relation.model, relation.referencedKey, false⟩
  | none =>
    (parent.relationTo? child.name).map fun relation =>
      ⟨relation.referencedKey, parent.name, relation.localKey, true⟩

end NestedQuery
