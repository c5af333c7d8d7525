import NestedQuery.Proofs.Resolve.Confinement
/-!
# What the operations of a store agree on

A query, a count and a deletion each go through a table in their own
way: one filters, one counts, one parts the table in two or looks for a
first row to take out. They go by one notion of a row that a task is
about (`Task.Wants`). With a table put in two parts by it (`Parts`), a
query and a deletion return the one part or its first row, a count
returns its length, and a deletion leaves the other part, or all rows
but that first one (`Store.operations_agree`).
-/

namespace NestedQuery

/-! ## Lists in two parts -/

/-- A list in two parts, each in the order of the list: what has a property and what lacks it. -/
inductive Parts {α : Type} (p : α → Prop) : List α → List α → List α → Prop where
  | nil : Parts p [] [] []
  | having {item : α} {items ins outs : List α} :
      p item → Parts p items ins outs → Parts p (item :: items) (item :: ins) outs
  | lacking {item : α} {items ins outs : List α} :
      ¬ p item → Parts p items ins outs → Parts p (item :: items) ins (item :: outs)

theorem parts_filter {α : Type} {p : α → Prop} {test : α → Bool}
    (h : ∀ item, test item = true ↔ p item) (items : List α) :
    Parts p items (items.filter test) (items.filter fun item => !test item) := by
  induction items with
  | nil => exact .nil
  | cons item rest ih =>
    by_cases hitem : test item = true
    · simpa [hitem] using Parts.having ((h item).1 hitem) ih
    · simpa [hitem] using Parts.lacking (fun hp => hitem ((h item).2 hp)) ih

/-! ## Rows of a task -/

/-- A row is one that a task is about: it has each column that is constrained, with a value that the
constraint admits. -/
def Task.Wants (task : Task) (row : Record) : Prop :=
  ∀ column constraint, task.constraint? column = some constraint →
    ∃ value, row.get? column = some value ∧ constraint.admits value = true

theorem Task.admits_iff_wants (task : Task) (row : Record) :
    task.admits row = true ↔ task.Wants row := by
  rw [Task.admits_iff]
  refine forall₃_congr fun column constraint _ => ?_
  unfold Record.meets
  cases row.get? column <;> simp

/-- All of some rows, or the first of them; absent if there is none. -/
def Outcome.pick (isBatch : Bool) (rows : List Record) : Outcome :=
  if isBatch then .records rows
  else match rows with
    | row :: _ => .record row
    | [] => .absent

namespace Store

variable {store : Store} {task : Task}

theorem get?_setRows (store : Store) (model : String) (rows : List Record) (other : String) :
    (store.setRows model rows).tables.get? other =
      if model = other then some rows else store.tables.get? other :=
  Keyed.get?_put _ _ _ _

theorem found_setRows (store : Store) (task : Task) (rows : List Record) :
    (store.setRows task.model rows).found task = rows.filter task.admits := by
  rw [found, rows_setRows, if_pos rfl]

/-- Unsorted, unpaged and uncut, what is selected are the rows of the task, or the first of them. -/
theorem select_plain (hsort : task.sort = none) (hpage : task.page = none)
    (hfields : task.fields = none) :
    store.select task = .pick task.batch.isBatch (store.found task) := by
  have hsorted : task.sorted (store.found task) = store.found task := by rw [Task.sorted, hsort]
  have hpaged : task.paged (store.found task) = store.found task := by rw [Task.paged, hpage]
  have hproject : (fun row => Record.project row task.fields) = id := by
    funext row
    rw [hfields]
    rfl
  rw [select, hsorted, hpaged, hproject, List.map_id]
  unfold Outcome.pick
  split
  · rfl
  · cases store.found task with
    | nil => rfl
    | cons row rest => exact congrArg Outcome.record (congrFun hproject row)

/-! ## Deletions -/

theorem delete_all (hbatch : task.batch.isBatch = true) :
    store.delete task = (.records (store.found task),
      store.setRows task.model ((store.rows task.model).filter fun row => !task.admits row)) := by
  rw [delete, if_pos hbatch, found]

theorem delete_none (hbatch : task.batch.isBatch = false) (hfound : store.found task = []) :
    store.delete task = (.absent, store) := by
  have hnone : (store.rows task.model).find? task.admits = none := by
    rw [← List.head?_filter, ← found, hfound, List.head?_nil]
  rw [delete, if_neg (by simp [hbatch]), hnone]

/-- The first row of the task is taken out; the rows in front of it and behind it stay. -/
theorem delete_first (hbatch : task.batch.isBatch = false) {row : Record} {rest : List Record}
    (hfound : store.found task = row :: rest) :
    ∃ front behind, store.rows task.model = front ++ row :: behind ∧
      (∀ other ∈ front, ¬ task.admits other = true) ∧ behind.filter task.admits = rest ∧
      store.delete task = (.record row, store.setRows task.model (front ++ behind)) := by
  obtain ⟨front, behind, hrows, hfront, hrow, hbehind⟩ := List.filter_eq_cons_iff.1 hfound
  refine ⟨front, behind, hrows, hfront, hbehind, ?_⟩
  have hfind : (store.rows task.model).find? task.admits = some row := by
    rw [← List.head?_filter, ← found, hfound, List.head?_cons]
  have herase : (store.rows task.model).eraseP task.admits = front ++ behind := by
    rw [hrows, List.eraseP_append_right _ hfront, List.eraseP_cons_of_pos hrow]
  rw [delete, if_neg (by simp [hbatch]), hfind, herase]

/-! ## One notion of a row -/

/-- What a deletion comes back with and leaves, given the rows of its task and the others. -/
structure Deletes (store : Store) (task : Task) (found others : List Record) (outcome : Outcome)
    (after : Store) : Prop where
  returned : outcome = .pick task.batch.isBatch found
  /-- If the task is about several rows, all of its rows go and the others stay. -/
  all : task.batch.isBatch = true → after.rows task.model = others
  /-- If it is about one, the first of its rows goes and all others stay, its equals too. -/
  first : task.batch.isBatch = false → ∀ row rest, found = row :: rest →
    ∃ front behind, store.rows task.model = front ++ row :: behind ∧
      (∀ other ∈ front, ¬ task.Wants other) ∧ after.rows task.model = front ++ behind
  none : task.batch.isBatch = false → found = [] → after = store
  /-- What went is no longer counted. -/
  recount : (execute .count task).run.run after =
    (.ok (.count (if task.batch.isBatch then 0 else found.length - 1)), after)
  /-- Other tables are as they were. -/
  framed : ∀ other, other ≠ task.model → after.tables.get? other = store.tables.get? other

/-- What each operation does for a task, given the rows of the task and the others. -/
structure Agrees (store : Store) (task : Task) (found others : List Record) : Prop where
  /-- They make up the table, and are none if there is no table. -/
  parts : Parts task.Wants (store.rows task.model) found others
  missing : store.tables.get? task.model = none → found = []
  counts : (execute .count task).run.run store = (.ok (.count found.length), store)
  selects : task.sort = none → task.page = none → task.fields = none →
    (execute .query task).run.run store = (.ok (.pick task.batch.isBatch found), store)
  deletes : ∃ outcome after, (execute .delete task).run.run store = (.ok outcome, after) ∧
    store.Deletes task found others outcome after

theorem execute_count (store : Store) (task : Task) :
    (execute .count task).run.run store = (.ok (.count (store.found task).length), store) := rfl

theorem get?_setRows_ne (rows : List Record) {other : String} (h : other ≠ task.model) :
    (store.setRows task.model rows).tables.get? other = store.tables.get? other := by
  rw [get?_setRows, if_neg h.symm]

/-- All rows of the task go. -/
theorem deletes_all (hbatch : task.batch.isBatch = true) {others : List Record}
    (hothers : others.filter task.admits = []) :
    store.Deletes task (store.found task) others (.records (store.found task))
      (store.setRows task.model others) where
  returned := by
    rw [hbatch]
    rfl
  all _ := by rw [rows_setRows, if_pos rfl]
  first h := by cases hbatch.symm.trans h
  none h := by cases hbatch.symm.trans h
  recount := by
    rw [execute_count, found_setRows, hothers, hbatch]
    rfl
  framed _ h := get?_setRows_ne _ h

/-- There is no row of the task to go. -/
theorem deletes_none (hbatch : task.batch.isBatch = false) (hfound : store.found task = [])
    (others : List Record) : store.Deletes task [] others .absent store where
  returned := by
    rw [hbatch]
    rfl
  all h := by cases hbatch.symm.trans h
  first _ _ _ h := by cases h
  none _ _ := rfl
  recount := by
    rw [execute_count, hfound, hbatch]
    rfl
  framed _ _ := rfl

/-- The first row of the task goes. -/
theorem deletes_first (hbatch : task.batch.isBatch = false) {row : Record}
    {rest front behind : List Record} (hrows : store.rows task.model = front ++ row :: behind)
    (hfront : ∀ other ∈ front, ¬ task.admits other = true)
    (hbehind : behind.filter task.admits = rest) (others : List Record) :
    store.Deletes task (row :: rest) others (.record row)
      (store.setRows task.model (front ++ behind)) where
  returned := by
    rw [hbatch]
    rfl
  all h := by cases hbatch.symm.trans h
  first _ _ _ heq := by
    obtain ⟨rfl, -⟩ := List.cons.inj heq
    refine ⟨front, behind, hrows, fun other hmem hwants => ?_, by rw [rows_setRows, if_pos rfl]⟩
    exact hfront other hmem ((task.admits_iff_wants other).2 hwants)
  none _ h := by cases h
  recount := by
    rw [execute_count, found_setRows, List.filter_append, List.filter_eq_nil_iff.2 hfront,
      List.nil_append, hbehind, hbatch]
    rfl
  framed _ h := get?_setRows_ne _ h

theorem deletes_delete (store : Store) (task : Task) :
    store.Deletes task (store.found task)
      ((store.rows task.model).filter fun row => !task.admits row)
      (store.delete task).1 (store.delete task).2 := by
  cases hbatch : task.batch.isBatch with
  | true =>
    rw [delete_all hbatch]
    exact deletes_all hbatch (by simp [List.filter_filter])
  | false =>
    cases hfound : store.found task with
    | nil =>
      rw [delete_none hbatch hfound]
      exact deletes_none hbatch hfound _
    | cons row rest =>
      obtain ⟨front, behind, hrows, hfront, hbehind, hdelete⟩ := delete_first hbatch hfound
      rw [hdelete]
      exact deletes_first hbatch hrows hfront hbehind _

/-- **Queries, counts and deletions go by one notion of a row that a task is about.** -/
theorem operations_agree (store : Store) (task : Task) :
    ∃ found others, store.Agrees task found others := by
  refine ⟨store.found task, (store.rows task.model).filter fun row => !task.admits row,
    parts_filter task.admits_iff_wants _, fun hmissing => ?_, store.execute_count task,
    fun hsort hpage hfields => ?_,
    (store.delete task).1, (store.delete task).2, rfl, store.deletes_delete task⟩
  · rw [found, rows, hmissing, Option.getD_none, List.filter_nil]
  · show ((.ok (store.select task) : Except Fault Outcome), store) = _
    rw [select_plain hsort hpage hfields]

end Store

end NestedQuery
