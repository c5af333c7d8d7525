import NestedQuery.Proofs.Resolve.Confinement
/-!
# The constraints of a request are honoured

Every row that is selected, counted or removed for a node has in each
column what the node writes there (`Engine.honours`). There is one
exception, and it is by design: a filter holds one constraint a column,
and on the column by which a nested node joins its parent that is the
join constraint. What the node itself writes there is lost
(`Engine.not_honours_joined`).
-/

namespace NestedQuery

/-- A task joins its parent by a column. -/
def Task.JoinsBy (task : Task) (column : String) : Prop :=
  ∃ link, task.link = some link ∧ link.localKey = column

/-- Joining constrains no column but that to join by. -/
theorem Task.constraint?_joined {task joined : Task} {cache : JoinCache}
    (h : task.joined cache = .ok joined) {column : String} (hcolumn : ¬ task.JoinsBy column) :
    joined.constraint? column = task.constraint? column := by
  unfold Task.joined at h
  split at h
  · obtain rfl := Except.ok.inj h
    rfl
  · next link hlink =>
    cases hconstraint : task.joinConstraint link cache with
    | error fault =>
      rw [hconstraint] at h
      cases h
    | ok constraint =>
      rw [hconstraint] at h
      obtain rfl := Except.ok.inj h
      rw [Task.constraint?_constrain, if_neg fun heq => hcolumn ⟨link, hlink, heq⟩]

/-- A row that a task admits has what is asked for in a column, if the constraint there admits what
is asked for. -/
theorem Task.honours_of_admits {task : Task} {row : Record} (h : task.admits row = true)
    {column : String} {constraint : Constraint} (hconstraint : task.constraint? column = some constraint)
    {isGroup : Bool} {written : Json}
    (hasks : ∀ cell, constraint.admits cell = written.asksOf isGroup cell) :
    row.honours isGroup column written = true := by
  have hmeets := Task.admits_iff.1 h column constraint hconstraint
  unfold Record.meets at hmeets
  unfold Record.honours
  cases hcell : row.get? column with
  | none => simp [hcell] at hmeets
  | some cell =>
    simp only [hcell] at hmeets
    exact (hasks cell).symm.trans hmeets

namespace Engine

namespace Tour

variable {engine : Engine Store} {operation : Operation} {request : Record} {store : Store}
  {visits : List Visit} {turns : List (Visit × List (Call Store))} {call : ExecutorCall Store}

/-- Every call is for the task of a node. -/
theorem exists_writes (h : engine.Tour operation request store visits turns)
    (hcall : call ∈ engine.executions operation request store) :
    ∃ resolved fields task,
      engine.catalog.Writes request (engine.catalog.forest request) resolved fields task ∧
        call.For task := by
  obtain ⟨x, hx, hturn⟩ := h.mem_executions.1 hcall
  obtain ⟨s₁, s₂, htakes⟩ := h.takes x hx
  have htask := List.mem_of_getElem? (h.getElem?_plan hx)
  rw [Catalog.plan_tasks] at htask
  obtain ⟨resolved, fields, hwrites, -⟩ :=
    (engine.catalog.compiles_forest request).exists_writes htask (htakes.executed_by hturn).1
  exact ⟨resolved, fields, _, hwrites, htakes.for_of_execution hturn⟩

/-- The executor of a node is called with the task of the node as it is joined. -/
theorem joined_of_writes (h : engine.Tour operation request store visits turns)
    (hstored : engine.Stored) (hrequest : (Json.obj request).Distinct) {resolved : Resolved}
    {fields : Record} {task : Task}
    (hwrites : engine.catalog.Writes request (engine.catalog.forest request) resolved fields task)
    (hcall : call ∈ engine.executions operation request store) (hfor : call.For task) :
    task.isFailed = false ∧ ∃ cache, task.joined cache = .ok call.task := by
  have htask := hwrites.mem_tasksOf
  rw [← Catalog.plan_tasks] at htask
  obtain ⟨j, htask⟩ := List.getElem?_of_mem htask
  obtain ⟨x, hx, -, rfl, hturn⟩ := (h.execution_iff hrequest htask).1 ⟨hcall, hfor⟩
  obtain ⟨s₁, s₂, htakes⟩ := h.takes x hx
  exact ⟨(htakes.executed_by hturn).1, _, (h.execute_eq hstored hx hturn).1⟩

end Tour

/-- The rows that are touched for a node have what it writes in its columns, but for columns that
are spared. -/
structure Honours (engine : Engine Store) (operation : Operation) (request : Record)
    (store : Store) (spares : Task → String → Prop) : Prop where
  /-- What is returned and left behind is told by the rows that are touched. -/
  accounts : ∀ call ∈ engine.executions operation request store, call.Accounts operation
  /-- Every call is for the task of a node. -/
  written : ∀ call ∈ engine.executions operation request store, ∃ resolved fields task,
    engine.catalog.Writes request (engine.catalog.forest request) resolved fields task ∧
      call.For task
  honoured : ∀ resolved fields task,
    engine.catalog.Writes request (engine.catalog.forest request) resolved fields task →
    ∀ call ∈ engine.executions operation request store, call.For task →
    ∀ column value type, (column, value) ∈ fields →
    resolved.model.rule? engine.catalog.settings.keys column = some (.column type) →
    ¬ spares task column →
    ∀ row ∈ call.before.touched operation call.task,
      row.honours resolved.isGroup column value = true

/-- **What a node writes in a column is honoured** by every row that is selected, counted or removed
for it, but in the column by which the node joins its parent. -/
theorem honours {engine : Engine Store} (hstored : engine.Stored) (operation : Operation)
    {request : Record} (hrequest : (Json.obj request).Distinct) (store : Store) :
    engine.Honours operation request store Task.JoinsBy := by
  obtain ⟨visits, turns, htour⟩ := engine.exists_tour operation request store
  have hcompiles := engine.catalog.compiles_forest request
  constructor
  · intro call hmem
    obtain ⟨x, hx, hcall⟩ := htour.mem_executions.1 hmem
    exact ExecutorCall.accounts (htour.execute_eq hstored hx hcall).2
  · exact fun call hmem => htour.exists_writes hmem
  · intro resolved fields task hwrites call hmem hfor column value type hfield hrule hspared row hrow
    obtain ⟨hfailed, cache, hjoined⟩ := htour.joined_of_writes hstored hrequest hwrites hmem hfor
    -- the constraint that the node was compiled to is still there after the join
    obtain ⟨constraint, hconstraint, hread⟩ :=
      hcompiles.reads hrequest hwrites hfailed hfield hrule
    have hadmits := (Store.mem_found.1 (Store.mem_found_of_touched hrow)).2
    exact Task.honours_of_admits hadmits
      ((Task.constraint?_joined hjoined hspared).trans hconstraint)
      fun _ => ColumnType.admits_read? hread

end Engine

namespace Library

/-- The books of an author, asked for by the number of another. -/
def strayed : Record :=
  [("author", .obj [("id", .ofNat 1), ("books", .obj [("id", .ofNat 7), ("author_id", .ofNat 2)])])]

theorem strayed_distinct : (Json.obj strayed).Distinct := by
  have hdistinct : ∀ n : Nat, (Json.ofNat n).Distinct := fun _ => trivial
  simp [strayed, Json.Distinct, Json.DistinctFields, Keyed.keys, hdistinct]

end Library

namespace Engine

theorem honours_library : (ofCatalog Library.catalog).Stored ∧ (Json.obj Library.strayed).Distinct ∧
    (ofCatalog Library.catalog).Honours .delete Library.strayed Library.stocked Task.JoinsBy :=
  ⟨stored_ofCatalog Library.inMemory, Library.strayed_distinct,
    honours (stored_ofCatalog Library.inMemory) .delete Library.strayed_distinct Library.stocked⟩

/-- The column to join by is not spared for nothing: a book of one author is removed though the
request asks for those of another. -/
theorem not_honours_joined :
    ¬ ∀ (catalog : Catalog) (operation : Operation) (request : Record) (store : Store),
      catalog.InMemory → operation ∈ [.query, .count, .delete] → (Json.obj request).Distinct →
      (ofCatalog catalog).Honours operation request store fun _ _ => False := by
  intro hall
  have hhonours := hall Library.catalog .delete Library.strayed Library.stocked Library.inMemory
    (by decide) Library.strayed_distinct
  have hcalls : ∃ call ∈ (ofCatalog Library.catalog).executions .delete Library.strayed Library.stocked,
      call.task.path.full = ["author", "books"] ∧
        ∃ row ∈ call.before.touched .delete call.task,
          row.honours true "author_id" (.ofNat 2) = false := by decide +kernel
  obtain ⟨call, hcall, hpath, row, hrow, hnot⟩ := hcalls
  have hnode : ∃ task, Library.catalog.Writes Library.strayed (Library.catalog.forest Library.strayed)
      ⟨Library.book, true⟩ [("id", .ofNat 7), ("author_id", .ofNat 2)] task ∧
      (Library.catalog.plan Library.strayed).tasks[1]? = some task ∧
      task.path.full = ["author", "books"] :=
    ⟨_, .inside rfl rfl (.here rfl rfl), rfl, rfl⟩
  obtain ⟨task, hwrites, htask, hfull⟩ := hnode
  obtain ⟨visits, turns, htour⟩ :=
    (ofCatalog Library.catalog).exists_tour .delete Library.strayed Library.stocked
  have hfor := htour.for_of_full Library.strayed_distinct htask hcall (hpath.trans hfull.symm)
  have hhonoured := hhonours.honoured _ _ _ hwrites call hcall hfor "author_id" (.ofNat 2) .number
    (by simp) rfl not_false row hrow
  rw [hhonoured] at hnot
  cases hnot

end Engine

end NestedQuery
