import NestedQuery.Proofs.Resolve.Creation
/-!
# What requests do to the tables

Whoever is called besides it, only the executor of a store changes the
store, and what it does to a table can be told from what it returned
(`Store.Balanced`): a creation puts the row that it returns behind the
others, a deletion takes the rows that it returns away and leaves the
others in order, and nothing else changes anything.

The relation holds of no call at all and goes on from calls to more
calls, so what is shown of a task holds of a request and of requests one
after the other (`Engine.keeps_books`), no matter which tasks fail or
are passed over on the way.
-/

namespace NestedQuery

open scoped List

/-! ## Calls and the rows they return -/

/-- The records that an executor came back with. -/
def ExecutorCall.returned {σ : Type} (call : ExecutorCall σ) : List Record :=
  match call.result with
  | .ok outcome => outcome.rows
  | .error _ => []

namespace Store

/-- The records that a store's executor, which goes by the name `memory`, returned for the tasks of a
model, in the order of the calls. -/
def returned (model : String) (calls : List (ExecutorCall Store)) : List Record :=
  (calls.filter fun call => call.id = "memory" ∧ call.task.model = model).flatMap
    ExecutorCall.returned

variable {model : String} {calls more : List (ExecutorCall Store)} {call : ExecutorCall Store}

theorem returned_append :
    returned model (calls ++ more) = returned model calls ++ returned model more := by
  simp [returned]

theorem returned_singleton (hid : call.id = "memory") :
    returned model [call] = if call.task.model = model then call.returned else [] := by
  by_cases heq : call.task.model = model <;> simp [returned, hid, heq]

/-- Calls of other executors do not count. -/
theorem returned_of_unserved (h : ∀ call ∈ calls, call.id ≠ "memory") : returned model calls = [] := by
  have hnone : (calls.filter fun call => call.id = "memory" ∧ call.task.model = model) = [] :=
    List.filter_eq_nil_iff.2 fun call hmem => by simp [h call hmem]
  rw [returned, hnone, List.flatMap_nil]

/-! ## Books that balance -/

/-- How calls that are made for an operation change the tables of a store. -/
structure Balanced (operation : Operation) (calls : List (ExecutorCall Store))
    (before after : Store) : Prop where
  /-- Unless rows are created or deleted, nothing changes. -/
  steady : operation ≠ .create → operation ≠ .delete → after = before
  /-- A call to create returns one row, which is the one that it makes. -/
  one : operation = .create → ∀ call ∈ calls, call.id = "memory" →
    call.returned = [call.task.newRow]
  /-- The rows that are created stand behind the others, in the order of the calls. -/
  created : operation = .create → ∀ model,
    after.rows model = before.rows model ++ returned model calls
  /-- Deletions leave rows in their order. -/
  kept : operation = .delete → ∀ model, after.rows model <+ before.rows model
  /-- And what they do not leave they return, each row once. -/
  removed : operation = .delete → ∀ model,
    before.rows model ~ after.rows model ++ returned model calls

namespace Balanced

variable {operation : Operation} {before mid after : Store}

/-- Calls of other executors leave the store alone. -/
theorem of_unserved (h : ∀ call ∈ calls, call.id ≠ "memory") (store : Store) :
    Balanced operation calls store store where
  steady _ _ := rfl
  one _ call hmem hid := absurd hid (h call hmem)
  created _ model := by rw [returned_of_unserved h, List.append_nil]
  kept _ model := List.Sublist.refl _
  removed _ model := by rw [returned_of_unserved h, List.append_nil]

theorem refl (store : Store) : Balanced operation [] store store :=
  of_unserved (by simp) store

/-- **More calls go on from where the first ones ended.** -/
theorem trans (h : Balanced operation calls before mid) (h' : Balanced operation more mid after) :
    Balanced operation (calls ++ more) before after where
  steady hcreate hdelete := (h'.steady hcreate hdelete).trans (h.steady hcreate hdelete)
  one hcreate call hmem hid := (List.mem_append.1 hmem).elim
    (fun hmem => h.one hcreate call hmem hid) fun hmem => h'.one hcreate call hmem hid
  created hcreate model := by
    rw [h'.created hcreate, h.created hcreate, returned_append, List.append_assoc]
  kept hdelete model := (h'.kept hdelete model).trans (h.kept hdelete model)
  removed hdelete model := by
    rw [returned_append]
    calc before.rows model
        ~ mid.rows model ++ returned model calls := h.removed hdelete model
      _ ~ (after.rows model ++ returned model more) ++ returned model calls :=
        (h'.removed hdelete model).append_right _
      _ = after.rows model ++ (returned model more ++ returned model calls) :=
        List.append_assoc ..
      _ ~ after.rows model ++ (returned model calls ++ returned model more) :=
        List.perm_append_comm.append_left _

end Balanced

/-! ## One call -/

/-- A row that is created is the only one returned, and stands behind the others of its table. -/
theorem create_balances (store : Store) (task : Task) :
    (store.create task).1.rows = [task.newRow] ∧
    ∀ model, (store.create task).2.rows model =
      store.rows model ++ if task.model = model then [task.newRow] else [] := by
  constructor
  · cases hbatch : task.batch.isBatch <;> simp [create, hbatch, Outcome.rows]
  · intro model
    rw [create, append, rows_setRows]
    split
    · next heq => rw [heq]
    · rw [List.append_nil]

/-- A deletion leaves rows in their order. -/
theorem sublist_delete (store : Store) (task : Task) (model : String) :
    (store.delete task).2.rows model <+ store.rows model := by
  by_cases heq : task.model = model
  · subst heq
    simp only [delete]
    split
    · rw [rows_setRows, if_pos rfl]
      exact List.filter_sublist
    · split
      · rw [rows_setRows, if_pos rfl]
        exact List.eraseP_sublist
      · exact List.Sublist.refl _
  · rw [(store.delete_accounts task).2.2 model heq]

/-- **The executor of a store keeps the books.** -/
theorem balanced_call {operation : Operation} (hid : call.id = "memory")
    (h : (execute operation call.task).run.run call.before = (call.result, call.after)) :
    Balanced operation [call] call.before call.after := by
  obtain ⟨hresult, hafter⟩ := Prod.mk.inj (h.symm.trans (Prod.eta _).symm)
  refine ⟨fun hcreate hdelete => ?_, ?_, ?_, ?_, ?_⟩
  · cases operation with
    | create => exact absurd rfl hcreate
    | delete => exact absurd rfl hdelete
    | query | count | update => exact hafter
  · rintro rfl other hmem -
    obtain rfl := List.mem_singleton.1 hmem
    rw [ExecutorCall.returned, hresult]
    exact (other.before.create_balances other.task).1
  · rintro rfl model
    obtain ⟨hrow, htables⟩ := call.before.create_balances call.task
    have hreturned : call.returned = [call.task.newRow] := by
      rw [ExecutorCall.returned, hresult]
      exact hrow
    rw [returned_singleton hid, hreturned, hafter]
    exact htables model
  · rintro rfl model
    rw [hafter]
    exact call.before.sublist_delete call.task model
  · rintro rfl model
    obtain ⟨hshown, hleft, hothers⟩ := call.before.delete_accounts call.task
    have hreturned : call.returned = call.before.touched .delete call.task := by
      rw [ExecutorCall.returned, hresult]
      exact hshown
    rw [returned_singleton hid, hreturned, hafter]
    split
    · next heq =>
      subst heq
      exact hleft.trans List.perm_append_comm
    · next hne =>
      rw [List.append_nil]
      exact .of_eq (hothers model hne).symm

end Store

/-! ## Tasks and walks -/

namespace Engine

variable {catalog : Catalog} {operation : Operation} {input : Record}

/-- **Whatever a task leads to, the books balance.** -/
theorem Takes.balanced {cache : JoinCache} {task : Task} {s s' : Store} {turn : List (Call Store)}
    {result : Except (Option Fault) Outcome}
    (h : (ofCatalog catalog).Takes ⟨operation, catalog, input, cache⟩ task s turn result s') :
    Store.Balanced operation (turn.filterMap Call.executor?) s s' := by
  cases h with
  | failed | noParser => exact .refl s
  | refused _ hparser hparse | idle _ hparser hparse | unjoined _ hparser hparse
  | noExecutor _ hparser hparse =>
    obtain rfl := (congrArg Prod.snd hparse).symm.trans (reads_ofCatalog catalog hparser _ _ _)
    exact .refl _
  | @executed _ _ arguments joined result s₁ _ hfailed hparser hparse _ hexecutor hexecute =>
    obtain rfl := (congrArg Prod.snd hparse).symm.trans (reads_ofCatalog catalog hparser _ _ _)
    rw [get?_executors_ofCatalog] at hexecutor
    split at hexecutor
    · next hmemory =>
      obtain rfl := Option.some.inj hexecutor
      show Store.Balanced operation [⟨task.executor, joined, arguments, _, result, _⟩] _ _
      exact Store.balanced_call hmemory.symm hexecute
    · next hmemory =>
      -- the default executor changes nothing
      split at hexecutor
      · obtain rfl := Option.some.inj hexecutor
        obtain rfl := congrArg Prod.snd hexecute
        exact .of_unserved (fun call hmem => List.mem_singleton.1 hmem ▸ Ne.symm hmemory) _
      · cases hexecutor

/-- **A run keeps the books.** -/
theorem balanced_run (catalog : Catalog) (operation : Operation) (request : Record) (store : Store) :
    Store.Balanced operation ((ofCatalog catalog).executions operation request store) store
      (((ofCatalog catalog).run operation request).run store).2 :=
  run_chains ⟨.refl, .trans⟩ operation request store fun _ _ _ _ _ _ _ htakes => htakes.balanced

/-- Executors are handed tasks of the plan, each once at most and in its order, with nothing but
their filters changed. -/
theorem Tour.sublist_executions {σ : Type} {engine : Engine σ} {request : Record} {s : σ}
    {visits : List Visit} {turns : List (Visit × List (Call σ))}
    (h : engine.Tour operation request s visits turns) :
    (engine.executions operation request s).map (fun call => call.task.bare) <+
      (engine.catalog.plan request).tasks.map Task.bare := by
  have hentries := h.entries.map fun entry => entry.2.bare
  rw [List.map_map, List.map_map] at hentries
  rw [executions, h.calls, List.filterMap_flatMap, List.map_flatMap, ← Catalog.map_entry_placedTasks,
    List.map_map]
  refine (flatMap_sublist_map fun x hx => ?_).trans hentries
  obtain ⟨s₁, s₂, htakes⟩ := h.takes x hx
  exact htakes.executions

/-! ## Requests one after the other -/

/-- The calls of executors that it takes to answer a request, which are none if it is no object. -/
def asked {σ : Type} (engine : Engine σ) (operation : Operation) (input : Json) (s : σ) :
    List (ExecutorCall σ) :=
  match input with
  | .obj request => engine.executions operation request s
  | _ => []

/-- The state that is left once some requests were answered. -/
def leaves {σ : Type} (engine : Engine σ) (s : σ) (requests : List (Operation × Json)) : σ :=
  requests.foldl (fun s request => ((engine.answer request.1 request.2).run s).2) s

/-- The rows of a model that are returned on requests for one operation, in order. -/
def turnover (engine : Engine Store) (operation : Operation) (model : String) :
    Store → List (Operation × Json) → List Record
  | _, [] => []
  | store, request :: rest =>
    (if request.1 = operation then
        Store.returned model (engine.asked request.1 request.2 store) else []) ++
      turnover engine operation model ((engine.answer request.1 request.2).run store).2 rest

/-- What the answer to a request does to the tables. -/
structure Books (engine : Engine Store) (operation : Operation) (input : Json) (before after : Store) :
    Prop where
  /-- The answer leaves this store. -/
  answered : ((engine.answer operation input).run before).2 = after
  /-- The tables are changed by the calls that the answer takes, and balance with them. -/
  balanced : Store.Balanced operation (engine.asked operation input before) before after
  /-- What is no object gets no call and changes nothing. -/
  refused : input.record? = none → engine.asked operation input before = [] ∧ after = before
  /-- The calls are those for tasks of the plan, one for each that is handed out. -/
  tasks : ∀ request, input = .obj request →
    (engine.asked operation input before).map (fun call => call.task.bare) <+
      (engine.catalog.plan request).tasks.map Task.bare

/-- Requests are answered, one after the other, so that the tables always balance. -/
structure KeepsBooks (engine : Engine Store) (store : Store) (requests : List (Operation × Json)) :
    Prop where
  /-- Each request finds the tables as those before it left them, and balances. -/
  each : ∀ past operation input future, requests = past ++ (operation, input) :: future →
    engine.Books operation input (engine.leaves store past)
      (engine.leaves store (past ++ [(operation, input)]))
  /-- In all, no row is lost and none is doubled: what was there at first or was created since is
  there in the end or was deleted. -/
  total : ∀ model, store.rows model ++ engine.turnover .create model store requests ~
    (engine.leaves store requests).rows model ++ engine.turnover .delete model store requests

theorem books (catalog : Catalog) (operation : Operation) (input : Json) (store : Store) :
    (ofCatalog catalog).Books operation input store
      (((ofCatalog catalog).answer operation input).run store).2 := by
  cases input with
  | obj request =>
    refine ⟨rfl, balanced_run catalog operation request store, fun hnone => (nomatch hnone), ?_⟩
    rintro request ⟨⟩
    obtain ⟨visits, turns, htour⟩ := (ofCatalog catalog).exists_tour operation request store
    exact htour.sublist_executions
  | null | bool _ | num _ | str _ | arr _ =>
    exact ⟨rfl, .refl store, fun _ => ⟨rfl, rfl⟩, fun request heq => (nomatch heq)⟩

/-- One more request in front of others. -/
theorem Books.turnover {engine : Engine Store} {operation : Operation} {input : Json}
    {before after : Store} (h : engine.Books operation input before after) (model : String)
    {final : Store} {created deleted : List Record}
    (hrest : after.rows model ++ created ~ final.rows model ++ deleted) :
    before.rows model ++ ((if operation = .create then
        Store.returned model (engine.asked operation input before) else []) ++ created) ~
      final.rows model ++ ((if operation = .delete then
        Store.returned model (engine.asked operation input before) else []) ++ deleted) := by
  generalize hcalls : engine.asked operation input before = calls
  have hbalanced := hcalls ▸ h.balanced
  cases operation with
  | create =>
    rw [if_pos rfl, if_neg (by decide), List.nil_append, ← List.append_assoc,
      ← hbalanced.created rfl]
    exact hrest
  | delete =>
    rw [if_neg (by decide), if_pos rfl, List.nil_append]
    calc before.rows model ++ created
        ~ (after.rows model ++ Store.returned model calls) ++ created :=
        (hbalanced.removed rfl model).append_right _
      _ ~ Store.returned model calls ++ (after.rows model ++ created) := by
        rw [← List.append_assoc]
        exact List.perm_append_comm.append_right _
      _ ~ Store.returned model calls ++ (final.rows model ++ deleted) := hrest.append_left _
      _ ~ final.rows model ++ (Store.returned model calls ++ deleted) := by
        rw [← List.append_assoc, ← List.append_assoc]
        exact List.perm_append_comm.append_right _
  | query | update | count =>
    obtain rfl := hbalanced.steady (by decide) (by decide)
    rw [if_neg (by decide), if_neg (by decide), List.nil_append, List.nil_append]
    exact hrest

/-- **The books are kept**, whatever is asked of a service and in whatever order: queries, counts
and updates change nothing, creations add the rows that they return, deletions return the rows that
they take away. -/
theorem keeps_books (catalog : Catalog) (store : Store) (requests : List (Operation × Json)) :
    (ofCatalog catalog).KeepsBooks store requests := by
  constructor
  · rintro past operation input future -
    have hbooks := books catalog operation input ((ofCatalog catalog).leaves store past)
    rwa [leaves, leaves, List.foldl_append]
  · intro model
    induction requests generalizing store with
    | nil => exact .refl _
    | cons request rest ih =>
      exact (books catalog request.1 request.2 store).turnover model (ih _)

end Engine

end NestedQuery
