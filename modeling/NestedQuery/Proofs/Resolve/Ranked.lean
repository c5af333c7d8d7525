import NestedQuery.Proofs.Resolve.Discipline
import NestedQuery.Proofs.Resolve.Memory
import NestedQuery.Proofs.Resolve.Sorting
/-!
# Runs that sort what can be sorted

A sort puts rows in order where its columns order them as a total
preorder (`Task.Ranks`). Of other rows, such as those with numbers
beside texts in a column, it is not promised in which order they come
out, nor that the sort does not give up, which would end the run without
an answer. So what is said of one query beside another is said where no
such rows are sorted (`Engine.Ranked`).

Whether they are can be seen from the calls of the executor, and so from
the visits of the walk (`Engine.Tour.ranked_iff`).
-/

namespace NestedQuery

/-- A stop has a task to hand on, as it is joined. -/
def Stop.Hands (stop : Stop) (joined : Task) : Prop :=
  stop.task.isFailed = false ∧ stop.task.joined stop.progress.cache = .ok joined

namespace Engine

/-- In a query each task that the store is handed sorts rows that its columns order. -/
def Ranked (catalog : Catalog) (operation : Operation) (request : Record) (store : Store) : Prop :=
  operation = .query →
    ∀ call ∈ (ofCatalog catalog).executions operation request store, call.id = "memory" →
      call.task.Ranks (store.found call.task)

variable {catalog : Catalog} {operation : Operation} {request : Record} {store : Store}

/-- The tasks of a plan that order their tables order all rows that are sorted for them. -/
theorem ranked_of_plan
    (h : ∀ task ∈ (catalog.plan request).tasks, task.Ranks (store.rows task.model)) :
    Ranked catalog operation request store := by
  intro _ call hcall _
  obtain ⟨visits, turns, htour⟩ := (ofCatalog catalog).exists_tour operation request store
  obtain ⟨x, hx, hmem⟩ := htour.mem_executions.1 hcall
  obtain ⟨s₁, s₂, htakes⟩ := htour.takes x hx
  -- the task was joined, which leaves its model and its sort as they are
  have hbare : call.task.bare = x.1.stop.task.bare := (htakes.for_of_execution hmem).2
  have hsort : call.task.sort = x.1.stop.task.sort :=
    show call.task.bare.sort = x.1.stop.task.bare.sort by rw [hbare]
  have hmodel : call.task.model = x.1.stop.task.model :=
    show call.task.bare.model = x.1.stop.task.bare.model by rw [hbare]
  have hranks := h x.1.stop.task (List.mem_of_getElem? (htour.getElem?_plan hx))
  have hcalled : call.task.Ranks (store.rows call.task.model) := fun keys hkeys =>
    hmodel ▸ hranks keys (hsort ▸ hkeys)
  exact hcalled.mono fun _ hrow => List.mem_of_mem_filter hrow

/-- A query is ranked if what is handed on by its visits is. -/
theorem Tour.ranked_iff {visits : List Visit} {turns : List (Visit × List (Call Store))}
    (h : (ofCatalog catalog).Tour .query request store visits turns)
    (hmemory : ∀ task ∈ (catalog.plan request).tasks, task.isFailed = false → task.InMemory) :
    Ranked catalog .query request store ↔ ∀ visit ∈ Visit.all visits, ∀ joined,
      visit.stop.Hands joined → joined.Ranks (store.found joined) := by
  constructor
  · rintro hranked visit hvisit joined ⟨hfailed, hjoined⟩
    obtain ⟨turn, hx⟩ := h.exists_turn hvisit
    obtain ⟨s₁, s₂, htakes⟩ := h.takes _ hx
    have htask := hmemory _ (List.mem_of_getElem? (h.getElem?_plan hx)) hfailed
    -- the one turn of such a task ends with a call of the store
    have hexecute : (Store.execute .query joined).run.run s₁ = (.ok (s₁.select joined), s₁) := rfl
    have hturn := ((takes_memory htask hjoined hexecute).unique htakes).1
    have hcall : (⟨visit.stop.task.executor, joined, visit.stop.task.toJson, s₁,
        .ok (s₁.select joined), s₁⟩ : ExecutorCall Store) ∈
        (ofCatalog catalog).executions .query request store :=
      h.mem_executions.2 ⟨_, hx, hturn ▸ List.mem_cons_of_mem _ (List.mem_singleton_self _)⟩
    exact hranked rfl _ hcall htask.executor
  · intro hvisits _ call hcall _
    obtain ⟨x, hx, hmem⟩ := h.mem_executions.1 hcall
    obtain ⟨s₁, s₂, htakes⟩ := h.takes x hx
    obtain ⟨hfailed, hjoined, -⟩ := htakes.executed_by hmem
    exact hvisits x.1 (h.mem_all hx) call.task ⟨hfailed, hjoined⟩

end Engine

end NestedQuery
