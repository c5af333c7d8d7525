import NestedQuery.Config.Load
import NestedQuery.Json.Reader
import NestedQuery.Service
/-!
# The command line

One call of the program: a configuration, an operation and a request in,
an exit status and the printed reply out. A reply is printed over
several lines; a failure prints nothing on the standard output. Failures
of the program have status 1, a wrong operation has status 2.
-/

namespace NestedQuery

namespace CommandLine

/-- What a call is made with. -/
structure Call where
  operation : String := "query"
  config : Config.Source
  environment : Environment := []
  envFile : Option String := none
  /-- The request, or a minus for the standard input. -/
  input : String
  /-- The standard input, if it is text. -/
  standardInput : Option String := some ""

/-- How a call ends. -/
inductive Exit where
  | printed (output : String)
  | failed (message : String)
  | misused (message : String)

namespace Exit

/-- The exit status. -/
def status : Exit → UInt8
  | printed _ => 0
  | failed _ => 1
  | misused _ => 2

/-- The text on the standard output. -/
def output : Exit → String
  | printed text => text
  | failed _ | misused _ => ""

/-- The text on the standard error. -/
def complaint : Exit → String
  | printed _ => ""
  | failed message | misused message => message ++ "\n"

end Exit

namespace Call

/-- The text of the request. -/
def request? (call : Call) : Option String :=
  if call.input = "-" then call.standardInput else some call.input

/-- Carries out an operation: the text of the reply. -/
def perform (call : Call) (operation : Operation) : Except LoadFault String := do
  let config ← Config.load call.config call.environment call.envFile
  let catalog ← config.catalog
  match call.request?.bind Json.read? with
  | none => .error .notJson
  | some input =>
    let (reply, _) := (Engine.ofCatalog catalog).answer operation input (Store.ofCatalog catalog)
    return reply.toJson.spread ++ "\n"

/-- Carries out a call. -/
def run (call : Call) : Exit :=
  match Operation.ofName call.operation with
  | .error fault => .misused fault.message
  | .ok operation =>
    match call.perform operation with
    | .ok output => .printed output
    | .error fault => .failed fault.message

end Call

end CommandLine

end NestedQuery
