import NestedQuery.Config.Environment
import NestedQuery.Config.Toml
import NestedQuery.Schema.Catalog
import NestedQuery.Schema.Format
/-!
# Configurations

A configuration holds the settings and the models. It is read from a
TOML file next to which an environment file may stand, and two variables
override the pagination defaults. A variable that is no 64-bit number is
passed over.
-/

namespace NestedQuery

/-- Settings and models. -/
structure Config where
  settings : Settings := {}
  models : List Model := []
deriving Inhabited

/-- Why there is no configuration or no catalog. -/
inductive LoadFault where
  | notFound (path : String)
  | unreadable
  | notToml
  | notJson
  | catalog (fault : CatalogFault)
deriving DecidableEq

/-- The wording of a load fault. -/
def LoadFault.message : LoadFault → String
  | notFound path => "Configuration file not found: " ++ path
  | unreadable => "IO error: the file cannot be read as text"
  | notToml => "TOML error: the file does not describe a configuration"
  | notJson => "JSON error: the value does not have the expected shape"
  | catalog fault => "Catalog error: Invalid catalog: " ++ fault.message

namespace Config

/-! ## Configurations and values -/

/-- The value of a configuration. -/
def toJson (config : Config) : Json :=
  .obj [("query", config.settings.toJson), ("models", .ofList Model.toJson config.models)]

/-- Reads a configuration. -/
def ofJson? (dialect : Json.Dialect) (value : Json) : Option Config := do
  let parts ← value.parts? dialect ["query", "models"]
  return {
    settings := ← Json.defaulted parts "query" {} (Settings.ofJson? dialect)
    models := ← Json.defaulted parts "models" [] (Json.listOf? (Model.ofJson? dialect)) }

/-- Reads a configuration from TOML text. -/
def ofToml (s : String) : Except LoadFault Config :=
  match (Toml.read? s).bind (ofJson? .toml) with
  | some config => .ok config
  | none => .error .notToml

/-- The catalog of a configuration. -/
def catalog (config : Config) : Except LoadFault Catalog :=
  match Catalog.build config.models config.settings with
  | .ok catalog => .ok catalog
  | .error fault => .error (.catalog fault)

/-! ## Variables -/

/-- The variable that overrides the default limit of a page. -/
def limitVariable : String := "NESTQL_PAGINATION_LIMIT"

/-- The variable that overrides the default offset of a page. -/
def offsetVariable : String := "NESTQL_PAGINATION_OFFSET"

/-- The 64-bit number that a variable writes in ASCII digits, with or without a plus sign. -/
def count? (s : String) : Option Nat :=
  let digits :=
    match s.toList with
    | '+' :: rest => rest
    | cs => cs
  (Text.natOfDigits? 10 Text.digit? digits).filter (· ≤ 0xffffffffffffffff)

/-- The number that a variable sets, or else a given one. -/
def override (environment : Environment) (name : String) (value : Nat) : Nat :=
  ((environment.get? name).bind count?).getD value

/-- A configuration under the variables that override it. -/
def underEnvironment (config : Config) (environment : Environment) : Config :=
  let page := config.settings.pagination
  { config with settings :=
    { config.settings with pagination :=
      { page with
        limit := override environment limitVariable page.limit
        offset := override environment offsetVariable page.offset } } }

/-! ## Loading -/

/-- The name that a configuration file has if no other is given. -/
def fileName : String := "nestql.toml"

/-- What was found under the path of a configuration file. -/
inductive Source where
  | absent (path : String)
  /-- A directory, or a file that is not UTF-8 text. -/
  | unreadable
  | text (content : String)

/-- What the bytes of a file are. -/
def Source.ofBytes (bytes : ByteArray) : Source :=
  match String.fromUTF8? bytes with
  | some content => .text content
  | none => .unreadable

/-- Loads a configuration under the variables of an environment and of the file next to it. -/
def load (source : Source) (environment : Environment) (envFile : Option String) :
    Except LoadFault Config :=
  match source with
  | .absent path => .error (.notFound path)
  | .unreadable => .error .unreadable
  | .text content => do
    let config ← ofToml content
    let environment :=
      match envFile with
      | some s => environment.extend s
      | none => environment
    return config.underEnvironment environment

end Config

end NestedQuery
