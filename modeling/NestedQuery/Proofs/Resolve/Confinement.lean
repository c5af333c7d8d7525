import NestedQuery.Proofs.Plan.Written
import NestedQuery.Proofs.Resolve.Agreement
import NestedQuery.Proofs.Resolve.Discipline
/-!
# Nested tasks stay within the join

The executor of a store touches rows: it selects, counts or removes them
(`Store.touched`). What it returns and leaves behind is told by the rows
that it touched and by nothing else (`ExecutorCall.Accounts`), so to
bound these is to bound what a request can see or destroy.

A nested task touches only rows that the records fetched for its parent
ask for (`Engine.confined`). Its filter holds the join constraint at the
time of the call, and that constraint admits no value of its own: every
value comes from a key of a parent record, and where there is no key
nothing is admitted.
-/

namespace NestedQuery

/-! ## The rows that a call touches -/

namespace Store

/-- The rows that an operation selects, counts or removes for a task, as the table holds them. -/
def touched (store : Store) (operation : Operation) (task : Task) : List Record :=
  match operation with
  | .query =>
    if task.batch.isBatch then task.paged (task.sorted (store.found task))
    else (task.sorted (store.found task)).take 1
  | .count => store.found task
  | .delete => if task.batch.isBatch then store.found task else (store.found task).take 1
  | .create | .update => []

theorem mem_found {store : Store} {task : Task} {row : Record} :
    row ∈ store.found task ↔ row ∈ store.rows task.model ∧ task.admits row = true :=
  List.mem_filter

/-- What is touched is in the table and admitted by the filter. -/
theorem mem_found_of_touched {store : Store} {operation : Operation} {task : Task} {row : Record}
    (h : row ∈ store.touched operation task) : row ∈ store.found task := by
  have hpaged : ∀ rows : List Record, task.paged rows ⊆ rows := by
    intro rows
    unfold Task.paged
    split
    · split
      · exact List.Subset.trans (List.take_subset ..) (List.drop_subset ..)
      · exact List.Subset.refl _
    · exact List.Subset.refl _
  cases operation with
  | query =>
    simp only [touched] at h
    split at h
    · exact Task.mem_sorted.1 (hpaged _ h)
    · exact Task.mem_sorted.1 (List.mem_of_mem_take h)
  | count => exact h
  | delete =>
    simp only [touched] at h
    split at h
    · exact h
    · exact List.mem_of_mem_take h
  | create | update => cases h

/-- The rows of a table after those of another or of the same were set. -/
theorem rows_setRows (store : Store) (model : String) (rows : List Record) (other : String) :
    (store.setRows model rows).rows other = if model = other then rows else store.rows other := by
  unfold Store.rows setRows
  rw [Keyed.get?_put]
  split <;> rfl

/-- A row of the task is taken out of the table, and the others stay. -/
theorem perm_eraseP {p : Record → Bool} {rows : List Record} {row : Record}
    (h : rows.find? p = some row) : rows.Perm (row :: rows.eraseP p) := by
  obtain ⟨hp, before, after, rfl, hbefore⟩ := List.find?_eq_some_iff_append.1 h
  have herase : (before ++ row :: after).eraseP p = before ++ after := by
    rw [List.eraseP_append_right _ fun b hb => by simpa using hbefore b hb,
      List.eraseP_cons_of_pos hp]
  rw [herase]
  exact List.perm_middle

end Store

/-- What a call of a store's executor returned and left behind, told by the rows that it touched:
a query shows them and a count counts them, and neither changes the store; a deletion shows them
and takes them, and nothing else, out of their table. -/
structure ExecutorCall.Accounts (operation : Operation) (call : ExecutorCall Store) : Prop where
  query : operation = .query → call.after = call.before ∧ ∃ outcome, call.result = .ok outcome ∧
    outcome.rows = (call.before.touched .query call.task).map fun row =>
      Record.project row call.task.fields
  count : operation = .count → call.after = call.before ∧
    call.result = .ok (.count (call.before.touched .count call.task).length)
  delete : operation = .delete →
    (∃ outcome, call.result = .ok outcome ∧
      outcome.rows = call.before.touched .delete call.task) ∧
    (call.before.rows call.task.model).Perm
      (call.before.touched .delete call.task ++ call.after.rows call.task.model) ∧
    ∀ other, call.task.model ≠ other → call.after.rows other = call.before.rows other

namespace Store

variable (store : Store) (task : Task)

theorem rows_select :
    (store.select task).rows = (store.touched .query task).map fun row =>
      Record.project row task.fields := by
  simp only [select, touched]
  split
  · rfl
  · cases task.sorted (store.found task) <;> rfl

/-- What a deletion shows and what it leaves make up what was there. -/
theorem delete_accounts :
    (store.delete task).1.rows = store.touched .delete task ∧
    (store.rows task.model).Perm
      (store.touched .delete task ++ (store.delete task).2.rows task.model) ∧
    ∀ other, task.model ≠ other → (store.delete task).2.rows other = store.rows other := by
  simp only [delete, touched, found]
  split
  · refine ⟨rfl, ?_, fun other hne => by rw [rows_setRows, if_neg hne]⟩
    rw [rows_setRows, if_pos rfl]
    exact (List.filter_append_perm task.admits _).symm
  · rw [List.take_one, List.head?_filter]
    cases hfind : (store.rows task.model).find? task.admits with
    | none => exact ⟨rfl, .refl _, fun _ _ => rfl⟩
    | some row =>
      refine ⟨rfl, ?_, fun other hne => by rw [rows_setRows, if_neg hne]⟩
      rw [rows_setRows, if_pos rfl]
      exact perm_eraseP hfind

end Store

/-- A task that is about one record comes back with one at most. -/
theorem Store.length_rows_execute {operation : Operation} {task : Task} {store after : Store}
    {outcome : Outcome} (hbatch : task.batch.isBatch = false)
    (h : (execute operation task).run.run store = (.ok outcome, after)) :
    outcome.rows.length ≤ 1 := by
  have hresult := (Prod.mk.inj ((Prod.eta _).trans h)).1
  cases operation with
  | query =>
    obtain rfl : store.select task = outcome := Except.ok.inj hresult
    rw [rows_select, touched, hbatch, if_neg Bool.false_ne_true, List.length_map]
    exact List.length_take_le ..
  | count =>
    obtain rfl : store.count task = outcome := Except.ok.inj hresult
    exact Nat.zero_le _
  | create =>
    obtain rfl : (store.create task).1 = outcome := Except.ok.inj hresult
    rw [create, hbatch]
    exact Nat.le_refl _
  | delete =>
    obtain rfl : (store.delete task).1 = outcome := Except.ok.inj hresult
    rw [(store.delete_accounts task).1, touched, hbatch, if_neg Bool.false_ne_true]
    exact List.length_take_le ..
  | update => cases hresult

/-- **The executor of a store accounts for the rows that it touches.** -/
theorem ExecutorCall.accounts {operation : Operation} {call : ExecutorCall Store}
    (h : (Store.execute operation call.task).run.run call.before = (call.result, call.after)) :
    call.Accounts operation := by
  obtain ⟨hresult, hafter⟩ := Prod.mk.inj (h.symm.trans (Prod.eta _).symm)
  refine ⟨?_, ?_, ?_⟩ <;> rintro rfl
  · exact ⟨hafter, _, hresult, call.before.rows_select call.task⟩
  · exact ⟨hafter, hresult⟩
  · obtain ⟨hshown, hleft, hothers⟩ := call.before.delete_accounts call.task
    exact ⟨⟨_, hresult, hshown⟩, hafter ▸ hleft, fun other hne => hafter ▸ hothers other hne⟩

/-! ## Engines that serve all models from memory -/

namespace Engine

/-- All models of the catalog are served by the executor of a store, whatever their parsers are. -/
def Stored (engine : Engine Store) : Prop :=
  ∀ model ∈ engine.catalog.models,
    engine.registry.executors.get? model.executor = some Store.executor

theorem stored_ofCatalog {catalog : Catalog} (h : catalog.InMemory) : (ofCatalog catalog).Stored := by
  intro model hmem
  rw [get?_executors_ofCatalog, (h model hmem).2, if_pos rfl]

/-- Each task that did not fail is served by the executor of a store. -/
theorem Stored.served {engine : Engine Store} (h : engine.Stored) (request : Record) :
    ∀ task ∈ Branch.tasksOf (engine.catalog.forest request), task.isFailed = false →
      engine.registry.executors.get? task.executor = some Store.executor := by
  intro task hmem hfailed
  obtain ⟨resolved, fields, -, hmodel, hexecutor⟩ :=
    (engine.catalog.compiles_forest request).exists_writes hmem hfailed
  rw [hexecutor, h _ hmodel]

namespace Tour

section

variable {σ : Type} {engine : Engine σ} {operation : Operation} {request : Record} {s : σ}
  {visits : List Visit} {turns : List (Visit × List (Call σ))}

/-- A nested task has its turn below that of its parent, and finds what was fetched for it. -/
theorem exists_host (h : engine.Tour operation request s visits turns)
    {x : Visit × List (Call σ)} (hx : x ∈ turns) (hnested : x.1.stop.task.isNested = true) :
    ∃ host, ∃ y ∈ turns, y.1.stop.task = host.task ∧ y.1.result = .ok host.fetched ∧
      Branch.Nests (engine.catalog.forest request) host.task x.1.stop.task ∧
      x.1.stop.task.Below engine.catalog (some host.task) ∧
      x.1.stop.progress.Holds host := by
  obtain ⟨final, s', hfollows⟩ := h.follows
  have hfits := engine.catalog.fits_forest request
  rcases Visit.mem_all_iff.1 (h.mem_all hx) with hmem | ⟨host, hnests⟩
  · obtain ⟨branch, hbranch, hroot⟩ := hfollows.root_of_mem hmem
    rw [← hroot, (Branch.root_below hfits hbranch).isNested] at hnested
    cases hnested
  · obtain ⟨hholds, hbelow⟩ := hfollows.holds_of_nests hfits hnests
    obtain ⟨stop, fetched, nested, rfl, hoccurs, -⟩ := hnests.exists_kept
    obtain ⟨turn, hy⟩ := h.exists_turn (Visit.mem_all_iff.2 hoccurs)
    exact ⟨_, _, hy, rfl, rfl, hfollows.nests hnests, hbelow, hholds⟩

end

/-- On a turn the executor of a store is called with the task as it is joined. -/
theorem execute_eq {engine : Engine Store} {operation : Operation} {request : Record}
    {store : Store} {visits : List Visit} {turns : List (Visit × List (Call Store))}
    (h : engine.Tour operation request store visits turns) (hstored : engine.Stored)
    {x : Visit × List (Call Store)} (hx : x ∈ turns) {call : ExecutorCall Store}
    (hcall : .executor call ∈ x.2) :
    x.1.stop.task.joined x.1.stop.progress.cache = .ok call.task ∧
      (Store.execute operation call.task).run.run call.before = (call.result, call.after) := by
  obtain ⟨s₁, s₂, htakes⟩ := h.takes x hx
  obtain ⟨hfailed, hjoined, executor, hexecutor, hexecute⟩ := htakes.executed_by hcall
  have hmem := List.mem_of_getElem? (h.getElem?_plan hx)
  rw [Catalog.plan_tasks] at hmem
  obtain rfl := Option.some.inj (hexecutor.symm.trans (hstored.served request _ hmem hfailed))
  exact ⟨hjoined, hexecute⟩

end Tour

end Engine

/-! ## What the join constraint admits -/

theorem Constraint.anyAdmits_ofKeys {keys : List Json} {value : Json} :
    anyAdmits (ofKeys keys) value = true ↔
      ∃ key ∈ keys, ∃ constraint, ofKey? key = some constraint ∧ constraint.admits value = true := by
  induction keys with
  | nil => simp [ofKeys, anyAdmits]
  | cons key rest ih =>
    rw [anyAdmits_ofKeys_cons, Bool.or_eq_true, ih, List.exists_mem_cons_iff]
    refine or_congr_left ?_
    cases ofKey? key <;> simp [admits, anyAdmits]

/-- A row is one that records ask for by a link: the value it joins by is one that the key of some
record admits. -/
def Link.Admits (link : Link) (records : List Record) (row : Record) : Prop :=
  ∃ value, row.get? link.localKey = some value ∧
    ∃ record ∈ records, ∃ key constraint, record.get? link.referencedKey = some key ∧
      Constraint.ofKey? key = some constraint ∧ constraint.admits value = true

/-- Records without a key other than null ask for no row. -/
theorem Link.not_admits {link : Link} {records : List Record}
    (h : ∀ record ∈ records, ∀ key, record.get? link.referencedKey = some key → key = .null)
    (row : Record) : ¬ link.Admits records row := by
  rintro ⟨value, -, record, hmem, key, constraint, hkey, hconstraint, -⟩
  rw [h record hmem key hkey] at hconstraint
  cases hconstraint

/-- **The join constraint admits nothing by itself**: what it admits, the key of a record of the
host does. -/
theorem Task.exists_key_of_hostConstraint {task : Task} {link : Link} {host : Host} {value : Json}
    (h : (task.hostConstraint link host).admits value = true) :
    ∃ record ∈ host.fetched.rows, ∃ key constraint, record.get? link.referencedKey = some key ∧
      Constraint.ofKey? key = some constraint ∧ constraint.admits value = true := by
  unfold hostConstraint at h
  cases hbatch : task.batch.underBatch with
  | true =>
    rw [hbatch, if_pos rfl, Constraint.anyOfKeys, Constraint.admits,
      Constraint.anyAdmits_ofKeys] at h
    obtain ⟨key, hkeys, constraint, hconstraint, hadmits⟩ := h
    obtain ⟨record, hmem, hkey⟩ := JoinIndex.mem_keys_ofOutcome.1 hkeys
    exact ⟨record, hmem, key, constraint, hkey, hconstraint, hadmits⟩
  | false =>
    rw [hbatch, if_neg Bool.false_ne_true, JoinIndex.single?_ofOutcome] at h
    cases hfetched : host.fetched with
    | record fields =>
      simp only [hfetched] at h
      cases hkey : fields.get? link.referencedKey with
      | none => simp [hkey, Constraint.admits, Constraint.anyAdmits] at h
      | some key =>
        rw [hkey, Option.bind_some] at h
        cases hconstraint : Constraint.ofKey? key with
        | none => simp [hconstraint, Constraint.admits, Constraint.anyAdmits] at h
        | some constraint =>
          rw [hconstraint, Option.getD_some] at h
          exact ⟨fields, List.mem_singleton_self _, key, constraint, hkey, hconstraint, h⟩
    | absent | records _ | count _ =>
      simp [hfetched, Constraint.admits, Constraint.anyAdmits] at h

/-! ## Confinement -/

/-- A call touches only rows that records ask for by a link, and none if the records carry no key
other than null. -/
structure ExecutorCall.Within (operation : Operation) (call : ExecutorCall Store) (link : Link)
    (records : List Record) : Prop where
  asked : ∀ row ∈ call.before.touched operation call.task, link.Admits records row
  keyless : (∀ record ∈ records, ∀ key, record.get? link.referencedKey = some key → key = .null) →
    call.before.touched operation call.task = []

theorem ExecutorCall.Within.of_asked {operation : Operation} {call : ExecutorCall Store}
    {link : Link} {records : List Record}
    (h : ∀ row ∈ call.before.touched operation call.task, link.Admits records row) :
    call.Within operation link records :=
  ⟨h, fun hkeyless => List.eq_nil_iff_forall_not_mem.2 fun row hrow =>
    Link.not_admits hkeyless row (h row hrow)⟩

namespace Engine

/-- The calls for nested tasks stay within what was fetched for their parents. -/
structure Confined (engine : Engine Store) (operation : Operation) (request : Record)
    (store : Store) : Prop where
  /-- What is returned and left behind is told by the rows that are touched. -/
  accounts : ∀ call ∈ engine.executions operation request store, call.Accounts operation
  /-- Those of a nested task are asked for by the records that the call for its parent came back
  with, which is one at most if the parent stands for one. -/
  nested : ∀ call ∈ engine.executions operation request store, call.task.isNested = true →
    ∃ parent child link, Branch.Nests (engine.catalog.forest request) parent child ∧
      call.For child ∧ child.link = some link ∧
      ∃ above ∈ engine.executions operation request store, above.For parent ∧
        ∃ outcome, above.Yields outcome ∧
          (parent.batch.isBatch = false → outcome.rows.length ≤ 1) ∧
          call.Within operation link outcome.rows

/-- **Nested tasks are confined**: they select, count and remove no row but those that join to a
record of their parent. -/
theorem confined {engine : Engine Store} (hstored : engine.Stored) (operation : Operation)
    (request : Record) (store : Store) : engine.Confined operation request store := by
  obtain ⟨visits, turns, htour⟩ := engine.exists_tour operation request store
  constructor
  · intro call hmem
    obtain ⟨x, hx, hcall⟩ := htour.mem_executions.1 hmem
    exact ExecutorCall.accounts (htour.execute_eq hstored hx hcall).2
  · intro call hmem hnested
    obtain ⟨x, hx, hcall⟩ := htour.mem_executions.1 hmem
    obtain ⟨s₁, s₂, htakes⟩ := htour.takes x hx
    have hfor := htakes.for_of_execution hcall
    have hbare : call.task.bare.isNested = x.1.stop.task.bare.isNested := by rw [hfor.2]
    obtain ⟨host, y, hy, htask, hresult, hnests, hbelow, hholds⟩ :=
      htour.exists_host hx (hbare.symm.trans hnested)
    obtain ⟨link, hlink, -, hcolumn, -⟩ := hbelow.link
    -- the parent was called on its own turn
    obtain ⟨t₁, t₂, htakesParent⟩ := htour.takes y hy
    obtain ⟨above, habove, hyields⟩ := htakesParent.result_iff.1 hresult
    refine ⟨host.task, x.1.stop.task, link, hnests, hfor, hlink, above,
      htour.mem_executions.2 ⟨y, hy, habove⟩, htask ▸ htakesParent.for_of_execution habove,
      host.fetched, hyields, fun hbatch => ?_, .of_asked fun row hrow => ?_⟩
    · have hbareParent : above.task.bare.batch = host.task.bare.batch := by
        rw [(htakesParent.for_of_execution habove).2, htask]
      have hexecute := (htour.execute_eq hstored hy habove).2
      rw [hyields.1] at hexecute
      exact Store.length_rows_execute (hbareParent ▸ hbatch) hexecute
    · -- the row meets the join constraint, which is in the filter as the last one put there
      have hjoined := (Visit.joinsTo_of_holds hholds hbelow hlink hcolumn).joined
      have hsame := Except.ok.inj ((htour.execute_eq hstored hx hcall).1.symm.trans hjoined)
      have hadmits := (Store.mem_found.1 (Store.mem_found_of_touched hrow)).2
      rw [hsame, Task.admits_constrain hlink, Bool.and_eq_true] at hadmits
      have hmeets := hadmits.1
      unfold Record.meets at hmeets
      cases hvalue : row.get? link.localKey with
      | none => simp [hvalue] at hmeets
      | some value =>
        rw [hvalue] at hmeets
        exact ⟨value, hvalue, Task.exists_key_of_hostConstraint hmeets⟩

/-- Both authors are removed, and the one book that joins to either. -/
theorem confined_library : (ofCatalog Library.catalog).Stored ∧
    ((ofCatalog Library.catalog).executions .delete Library.unsorted Library.stocked).map
        (fun call => (call.task.path.full, (call.before.touched .delete call.task).length)) =
      [(["authors"], 2), (["authors", "books"], 1)] ∧
    (ofCatalog Library.catalog).Confined .delete Library.unsorted Library.stocked :=
  ⟨stored_ofCatalog Library.inMemory, by decide +kernel,
    confined (stored_ofCatalog Library.inMemory) .delete Library.unsorted Library.stocked⟩

end Engine

end NestedQuery
