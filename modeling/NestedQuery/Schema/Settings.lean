/-!
# Settings

The reserved keys by which a request gives directives, and what a
pagination directive means where it leaves something out.
-/

namespace NestedQuery

/-- The keys read as directives. -/
structure DirectiveKeys where
  model : String := "@model"
  field : String := "@field"
  sort : String := "@sort"
  pagination : String := "@pagination"
deriving DecidableEq, Inhabited

/-- The defaults of a pagination directive, and the path segment that an enabled one adds. -/
structure PageDefaults where
  key : String := "pagination"
  offset : Nat := 0
  limit : Nat := 10
deriving DecidableEq, Inhabited

/-- The settings under which requests are read. -/
structure Settings where
  keys : DirectiveKeys := {}
  pagination : PageDefaults := {}
deriving DecidableEq

instance : Inhabited Settings := ⟨{}⟩

end NestedQuery
