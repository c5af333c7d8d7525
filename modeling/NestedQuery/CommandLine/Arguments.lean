import NestedQuery.Config.Load
/-!
# Arguments

The words behind the program's name: two options, each given at most
once, and one input. An option takes the next word as its value, or the
text behind an equals sign; behind a lone double minus every word is an
input. A single minus is a word like any other.
-/

namespace NestedQuery

namespace CommandLine

/-- What a call says in words. -/
structure Arguments where
  config : String
  operation : String
  input : String
deriving DecidableEq

/-- How the words of a call read. -/
inductive Reading where
  | call (arguments : Arguments)
  | help
  | misuse (message : String)
deriving DecidableEq

/-- How a call is made. -/
def usage : String :=
  "usage: [--config FILE] [--op OPERATION] INPUT

  -c, --config FILE    the configuration file, nestql.toml by default
  -o, --op OPERATION   query, create, update, delete or count; query by default
  -h, --help           this text

INPUT is the request as JSON, or a minus to read it from the standard input."

/-! ## Words -/

/-- The options. -/
inductive Flag where
  | config
  | operation
  | help
deriving DecidableEq

/-- What a word stands for. -/
inductive Word where
  | flag (flag : Flag) (value? : Option String)
  | separator
  | value (text : String)
  | unknown (text : String)
deriving DecidableEq

/-- The option of a long name. -/
def Flag.ofName? (name : String) : Option Flag :=
  if name = "config" then some config
  else if name = "op" then some operation
  else if name = "help" then some help
  else none

/-- The option of a letter. -/
def Flag.ofLetter? (letter : Char) : Option Flag :=
  if letter = 'c' then some config
  else if letter = 'o' then some operation
  else if letter = 'h' then some help
  else none

/-- A word as an option, if its name is one. -/
def Word.ofFlag (text : String) (flag? : Option Flag) (value? : Option String) : Word :=
  match flag? with
  | some f => flag f value?
  | none => unknown text

/-- What a word stands for. -/
def Word.ofText (text : String) : Word :=
  match text.toList with
  | ['-'] => value text
  | ['-', '-'] => separator
  | '-' :: '-' :: rest =>
    match Text.cut? '=' (String.ofList rest) with
    | some (name, given) => ofFlag text (Flag.ofName? name) (some given)
    | none => ofFlag text (Flag.ofName? (String.ofList rest)) none
  | ['-', letter] => ofFlag text (Flag.ofLetter? letter) none
  | '-' :: letter :: '=' :: rest => ofFlag text (Flag.ofLetter? letter) (some (String.ofList rest))
  | '-' :: letter :: rest => ofFlag text (Flag.ofLetter? letter) (some (String.ofList rest))
  | _ => value text

/-! ## Calls -/

/-- What was read of a call. -/
structure Draft where
  config? : Option String := none
  operation? : Option String := none
  input? : Option String := none

namespace Draft

/-- Takes the value of an option, unless it has one. -/
def set? (draft : Draft) (flag : Flag) (value : String) : Option Draft :=
  match flag, draft.config?, draft.operation? with
  | .config, none, _ => if value = "" then none else some { draft with config? := some value }
  | .operation, _, none => some { draft with operation? := some value }
  | _, _, _ => none

/-- Takes the input, unless there is one. -/
def setInput? (draft : Draft) (input : String) : Option Draft :=
  match draft.input? with
  | none => some { draft with input? := some input }
  | some _ => none

/-- The call, once everything was read. What was left out has a default. -/
def finish (draft : Draft) : Reading :=
  match draft.input? with
  | none => .misuse "the input is missing"
  | some input => .call
    { config := draft.config?.getD Config.fileName
      operation := draft.operation?.getD "query"
      input }

/-- Reads words as inputs. -/
def readInputs : Draft → List String → Reading
  | draft, [] => draft.finish
  | draft, text :: rest =>
    match draft.setInput? text with
    | some draft => readInputs draft rest
    | none => .misuse ("unexpected argument '" ++ text ++ "'")

/-- Reads words. -/
def read : Draft → List String → Reading
  | draft, [] => draft.finish
  | draft, text :: rest =>
    match Word.ofText text with
    | .separator => draft.readInputs rest
    | .unknown text => .misuse ("unexpected argument '" ++ text ++ "'")
    | .flag .help _ => .help
    | .value text =>
      match draft.setInput? text with
      | some draft => read draft rest
      | none => .misuse ("unexpected argument '" ++ text ++ "'")
    | .flag flag (some value) =>
      match draft.set? flag value with
      | some draft => read draft rest
      | none => .misuse ("unexpected value for '" ++ text ++ "'")
    | .flag flag none =>
      match rest with
      | [] => .misuse ("the value for '" ++ text ++ "' is missing")
      | next :: rest =>
        match Word.ofText next with
        | .value value =>
          match draft.set? flag value with
          | some draft => read draft rest
          | none => .misuse ("unexpected value for '" ++ text ++ "'")
        | _ => .misuse ("the value for '" ++ text ++ "' is missing")

end Draft

/-- Reads the words of a call. -/
def Arguments.read (words : List String) : Reading := Draft.read {} words

/-! ## Paths -/

/-- The path of the environment file next to a configuration file. -/
def envPath (config : String) : String :=
  String.ofList ((config.toList.reverse.dropWhile (· ≠ '/')).reverse) ++ ".env"

end CommandLine

end NestedQuery
