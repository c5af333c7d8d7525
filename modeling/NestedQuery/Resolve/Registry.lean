import NestedQuery.Plan.Format
import NestedQuery.Resolve.JoinIndex
import NestedQuery.Schema.Catalog
import NestedQuery.Text.Hidden
/-!
# Parsers and executors

Data is fetched by executors, and what they are to fetch is said by
parsers; a model names the ones it uses. Both may read and change a
state `σ` of which nothing is known here, and both may fail. A parser
may also find that there is nothing to fetch. An executor is given its
task after the join constraint went into the filter.
-/

namespace NestedQuery

/-! ## Operations -/

/-- The kind of a request. -/
inductive Operation where
  | query
  | create
  | update
  | delete
  | count
deriving DecidableEq, Inhabited

namespace Operation

/-- The name of an operation. -/
def name : Operation → String
  | query => "query"
  | create => "create"
  | update => "update"
  | delete => "delete"
  | count => "count"

/-- The operation of a name, in ASCII letters of either case. -/
def ofName (s : String) : Except Fault Operation :=
  let lower := s.toLower
  if lower = "query" then .ok query
  else if lower = "create" then .ok create
  else if lower = "update" then .ok update
  else if lower = "delete" then .ok delete
  else if lower = "count" then .ok count
  else .error (.notSupported ("operation '" ++ lower ++ "'"))

end Operation

/-! ## What parsers and executors see and do -/

/-- What is known of a request while its tasks are worked on. -/
structure Context where
  operation : Operation
  catalog : Catalog
  /-- The request as it came. -/
  input : Record
  /-- The indices of the tasks so far. -/
  cache : JoinCache

/-- A step that may change a state and may fail; a change made before a failure stays. -/
abbrev Attempt (σ α : Type) : Type := ExceptT Fault (StateM σ) α

/-- Turns a task into the arguments of an executor; none if there is nothing to fetch. -/
abbrev Parser (σ : Type) : Type := Context → Task → Attempt σ (Option Json)

/-- Does the work of a task, given the arguments from its parser. -/
abbrev Executor (σ : Type) : Type := Context → Task → Json → Attempt σ Outcome

/-! ## Registries -/

/-- Parsers and executors by name. -/
structure Registry (σ : Type) where
  parsers : Keyed (Parser σ) := []
  executors : Keyed (Executor σ) := []

namespace Registry

variable {σ : Type}

/-- Adds a parser, in place of one of the same name. -/
def addParser (registry : Registry σ) (id : String) (parser : Parser σ) : Registry σ :=
  { registry with parsers := registry.parsers.put id parser }

/-- Adds an executor, in place of one of the same name. -/
def addExecutor (registry : Registry σ) (id : String) (executor : Executor σ) : Registry σ :=
  { registry with executors := registry.executors.put id executor }

/-- The parser named `default` passes the task itself on, as a value. -/
def defaultParser : Parser σ := fun _ task => return some task.toJson

/-- The executor named `default` gives its arguments back as the outcome. -/
def defaultExecutor : Executor σ := fun _ _ arguments => liftM (Outcome.ofJson arguments)

/-- The registry of the two defaults. -/
def withDefaults : Registry σ :=
  (({} : Registry σ).addParser "default" defaultParser).addExecutor "default" defaultExecutor

/-! ### Description -/

/-- A character inside the quotes of a description. -/
def describeChar (c : Char) : List Char :=
  if c = '"' then ['\\', '"']
  else if c = '\\' then ['\\', '\\']
  else if c = '\n' then ['\\', 'n']
  else if c = '\r' then ['\\', 'r']
  else if c = '\t' then ['\\', 't']
  else if c = '\x00' then ['\\', '0']
  else if Text.isHidden c then
    '\\' :: 'u' :: '\x7b' :: (Nat.toDigits 16 c.toNat ++ ['\x7d'])
  else [c]

/-- Names in quotes, between brackets. -/
def describeNames (names : List String) : String :=
  "[" ++ String.intercalate ", " (names.map fun name =>
    String.ofList ('"' :: (name.toList.flatMap describeChar ++ ['"']))) ++ "]"

/-- The names in a registry, as one line for people. -/
def describe (registry : Registry σ) : String :=
  "Registry \x7b parsers: " ++ describeNames registry.parsers.keys ++
    ", executors: " ++ describeNames registry.executors.keys ++ " \x7d"

end Registry

end NestedQuery
