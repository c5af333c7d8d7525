import NestedQuery.Schema.Model
/-!
# Faults

What can go wrong with one node of a request. A fault never ends a
request: its wording is reported with the path of the node, and the rest
goes on. Faults of executors and of the catalog carry their own wording.
-/

namespace NestedQuery

/-- Why the value under a key does not fit the rule of that key. -/
inductive RuleFault where
  | notAString
  | emptyFieldList
  | missingFieldName (entry : String)
  | duplicateField (name : String)
  | duplicateAlias (name : String)
  | aliasShadowsColumn (name : String)
  | invalidPagination (detail : String)
  | typeMismatch (column : String) (expected : ColumnType)
deriving DecidableEq

/-- The wording of a rule fault. -/
def RuleFault.message : RuleFault → String
  | notAString => "value is not a string"
  | emptyFieldList => "field list is empty"
  | missingFieldName entry => "missing field name in '" ++ entry ++ "'"
  | duplicateField name => "duplicate field '" ++ name ++ "'"
  | duplicateAlias name => "duplicate alias '" ++ name ++ "'"
  | aliasShadowsColumn name => "alias '" ++ name ++ "' collides with a column"
  | invalidPagination detail => "invalid pagination: " ++ detail
  | typeMismatch column expected =>
    "expected " ++ expected.name ++ " for column '" ++ column ++ "'"

/-- Why a node of a request has no result. -/
inductive Fault where
  | unknownModel (name : String)
  | unknownKey (key : String)
  | noRelation (child parent : String)
  | nullValue (key : String)
  | invalidValue (key : String)
  | directive (key : String) (fault : RuleFault)
  | missingParser (id : String)
  | missingExecutor (id : String)
  | missingJoinKey (path key : String)
  | execution (detail : String)
  | notSupported (detail : String)
  | invalidCatalog (detail : String)
deriving DecidableEq

/-- The wording of a fault. -/
def Fault.message : Fault → String
  | unknownModel name => "Unknown model: " ++ name
  | unknownKey key => "Unknown key: " ++ key
  | noRelation child parent => "No relation between '" ++ child ++ "' and '" ++ parent ++ "'"
  | nullValue key => "Null value for key: " ++ key
  | invalidValue key => "Invalid value for '" ++ key ++ "': expected true or an object"
  | directive key fault => "Directive error on '" ++ key ++ "': " ++ fault.message
  | missingParser id => "Parser not registered: " ++ id
  | missingExecutor id => "Executor not registered: " ++ id
  | missingJoinKey path key => "Join key '" ++ key ++ "' not cached at '" ++ path ++ "'"
  | execution detail => "Execution error: " ++ detail
  | notSupported detail => "Operation not supported: " ++ detail
  | invalidCatalog detail => "Invalid catalog: " ++ detail

end NestedQuery
