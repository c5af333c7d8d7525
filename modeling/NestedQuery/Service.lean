import NestedQuery.Resolve.Run
import NestedQuery.Resolve.Store
/-!
# The service

A service answers requests to a catalog. A request is any JSON value,
but only an object is a valid one; anything else gets the input error
and reaches no executor.
-/

namespace NestedQuery

/-! ## Replies -/

/-- The answer to a request. -/
inductive Reply where
  | inputError
  | resolved (resolution : Resolution)

/-- The value of a reply. Errors are left out if there are none. -/
def Reply.toJson : Reply → Json
  | .inputError => .obj [("code", .ofNat 1), ("msg", .str "input error")]
  | .resolved resolution =>
    .obj (("data", resolution.data) ::
      if resolution.errors.isEmpty then [] else [("errors", .ofTexts resolution.errors)])

/-! ## Requests -/

/-- Answers a request. -/
def Engine.answer {σ : Type} (engine : Engine σ) (operation : Operation) (input : Json) :
    StateM σ Reply :=
  match input with
  | .obj request => do return .resolved (← engine.run operation request)
  | _ => return .inputError

/-- The engine that serves a catalog from a store: the default parser, the default executor, and
the store's under the name `memory`. -/
def Engine.ofCatalog (catalog : Catalog) : Engine Store :=
  ⟨catalog, Registry.withDefaults.addExecutor "memory" Store.executor⟩

end NestedQuery
