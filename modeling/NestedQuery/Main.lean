import NestedQuery.CommandLine
import NestedQuery.CommandLine.Arguments
/-!
# The program

The outermost layer: it reads the files, the variables and the standard
input that a call names, and prints what the call ends with.
-/

namespace NestedQuery

namespace CommandLine

/-- What stands under the path of a configuration file. -/
def readSource (path : String) : IO Config.Source := do
  match ← (IO.FS.readBinFile path).toBaseIO with
  | .ok bytes => return .ofBytes bytes
  | .error (.noFileOrDirectory ..) => return .absent path
  | .error _ => return .unreadable

/-- The text of an environment file, if there is one. -/
def readEnvFile (path : String) : IO (Option String) := do
  match ← (IO.FS.readBinFile path).toBaseIO with
  | .ok bytes => return String.fromUTF8? bytes
  | .error _ => return none

/-- The variables that a configuration heeds, where they are set. -/
def readEnvironment : IO Environment :=
  [Config.limitVariable, Config.offsetVariable].filterMapM fun name => do
    return (← IO.getEnv name).map fun value => (name, value)

/-- The text of the standard input, read only if a call asks for it. -/
def readInput (input : String) : IO (Option String) := do
  if input = "-" then
    return String.fromUTF8? (← (← IO.getStdin).readBinToEnd)
  else return some ""

/-- Makes the call that arguments describe. -/
def makeCall (arguments : Arguments) : IO Exit := do
  let call : Call :=
    { operation := arguments.operation
      config := ← readSource arguments.config
      environment := ← readEnvironment
      envFile := ← readEnvFile (envPath arguments.config)
      input := arguments.input
      standardInput := ← readInput arguments.input }
  return call.run

/-- Runs the program on the words behind its name. -/
def start (words : List String) : IO UInt32 := do
  let exit ← match Arguments.read words with
    | .call arguments => makeCall arguments
    | .help => pure (.printed (usage ++ "\n"))
    | .misuse message => pure (.misused (message ++ "\n" ++ usage))
  IO.print exit.output
  IO.eprint exit.complaint
  return exit.status.toUInt32

end CommandLine

end NestedQuery

/-- Runs the program. -/
def main (words : List String) : IO UInt32 := NestedQuery.CommandLine.start words
