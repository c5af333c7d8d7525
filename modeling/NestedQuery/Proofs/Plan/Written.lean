import NestedQuery.Proofs.Plan.Fitting
/-!
# What a request writes under a column

A node constrains a column by writing a value under its key, or a list
of values where the node stands for a group. What this asks of a cell is
said here from the value alone (`Json.asksOf`), and so is which node of
the request a task is that of (`Catalog.Writes`).

The compiler reads the value as a constraint (`ColumnType.read?`), which
admits what the value asks for, and puts it into the filter. It stays: no
other key of the node touches the column (`Catalog.Compiles.reads`), and
no column is constrained but by its key (`Catalog.Compiles.written`).
-/

namespace NestedQuery

/-! ## Values and cells -/

namespace Json

/-- Whether a cell holds what a value writes. Numbers are compared by what they are worth, objects
without regard to the order of their keys. -/
def writes : Json → Json → Bool
  | .bool a, .bool b => a == b
  | .num a, .num b => a.order b == .eq
  | .str a, .str b => a == b
  | .obj a, .obj b => (Json.obj a).same (.obj b)
  | _, _ => false

/-- Whether a cell is one that a value under a column asks for: in a group, a list asks for any of
its items. -/
def asksOf (isGroup : Bool) (written cell : Json) : Bool :=
  match written, isGroup with
  | .arr items, true => items.any fun item => item.writes cell
  | other, _ => other.writes cell

end Json

/-- Whether a row has in a column what a value asks for. -/
def Record.honours (row : Record) (isGroup : Bool) (column : String) (written : Json) : Bool :=
  match row.get? column with
  | some cell => written.asksOf isGroup cell
  | none => false

namespace ColumnType

variable {type : ColumnType}

/-- A constraint admits what the value that it was read from writes. -/
theorem admits_accept? {written cell : Json} {constraint : Constraint}
    (h : type.accept? written = some constraint) :
    constraint.admits cell = written.writes cell := by
  cases type <;> cases written <;> cases h <;> cases cell <;> simp [Constraint.admits, Json.writes]

theorem anyAdmits_mapM {items : List Json} {constraints : List Constraint} {cell : Json}
    (h : items.mapM type.accept? = some constraints) :
    Constraint.anyAdmits constraints cell = items.any fun item => item.writes cell := by
  induction items generalizing constraints with
  | nil =>
    obtain rfl := Option.some.inj h
    simp [Constraint.anyAdmits]
  | cons item rest ih =>
    rw [List.mapM_cons] at h
    obtain ⟨first, hfirst, h⟩ := Option.bind_eq_some_iff.1 h
    obtain ⟨others, hothers, h⟩ := Option.bind_eq_some_iff.1 h
    obtain rfl := Option.some.inj h
    rw [Constraint.anyAdmits, admits_accept? hfirst, ih hothers, List.any_cons]

end ColumnType

/-- The constraint that a value under a column is read as: in a group, a list is any of its
items. -/
def ColumnType.read? (type : ColumnType) (isGroup : Bool) (written : Json) : Option Constraint :=
  match written, isGroup with
  | .arr items, true => type.acceptAnyOf? items
  | other, _ => type.accept? other

/-- What a value is read as admits what the value asks for. -/
theorem ColumnType.admits_read? {type : ColumnType} {isGroup : Bool} {written cell : Json}
    {constraint : Constraint} (h : type.read? isGroup written = some constraint) :
    constraint.admits cell = written.asksOf isGroup cell := by
  cases isGroup with
  | false => cases written <;> exact admits_accept? h
  | true =>
    cases written with
    | arr items =>
      obtain ⟨constraints, hconstraints, rfl⟩ := Option.map_eq_some_iff.1 h
      rw [Constraint.admits, anyAdmits_mapM hconstraints]
      rfl
    | _ => exact admits_accept? h

/-! ## Rules and the filter -/

/-- The constraint on a column, if there is one. -/
def Task.constraint? (task : Task) (column : String) : Option Constraint :=
  (task.filter.getD .empty).get? column

theorem Task.constraint?_constrain (task : Task) (column : String) (constraint : Constraint)
    (other : String) :
    (task.constrain column constraint).constraint? other =
      if column = other then some constraint else task.constraint? other :=
  SortedMap.get?_insert _ _ _ _

namespace Branch

theorem isFailed_fail (task : Task) (fault : Fault) : (fail task fault).1.root.isFailed = true := by
  simp [fail, Task.isFailed]

@[simp] theorem widen_filter (task : Task) (nested : List Branch) :
    (widen task nested).filter = task.filter := by
  induction nested generalizing task with
  | nil => rfl
  | cons branch rest ih =>
    unfold widen
    split
    · next link _ =>
      obtain ⟨columns, heq⟩ := task.addJoinColumn_eq link.referencedKey
      rw [ih, heq]
    · exact ih task

/-- What is nested in a task adds no constraint to it. -/
theorem constraint?_grow (task : Task) (nested : List Branch) (column : String) :
    (grow (widen task nested).addJoinFields nested).root.constraint? column =
      task.constraint? column := by
  show ((widen task nested).filter.getD .empty).get? column = _
  rw [widen_filter]
  rfl

end Branch

namespace Rule

theorem applyColumn_eq (type : ColumnType) (key : String) (value : Json) (task : Task) :
    applyColumn type key value task =
      match type.read? task.batch.isGroup value with
      | some constraint => (task.constrain key constraint, none)
      | none => (task, some (.typeMismatch key type)) := rfl

/-- A column that passes constrains itself by what its value is read as. -/
theorem applyColumn_read {type : ColumnType} {key : String} {value : Json} {task task' : Task}
    (h : applyColumn type key value task = (task', none)) :
    ∃ constraint, type.read? task.batch.isGroup value = some constraint ∧
      task' = task.constrain key constraint := by
  rw [applyColumn_eq] at h
  cases hread : type.read? task.batch.isGroup value with
  | none =>
    rw [hread] at h
    cases h
  | some constraint =>
    rw [hread] at h
    exact ⟨constraint, rfl, (Prod.mk.inj h).1.symm⟩

/-- A directive constrains no column. -/
theorem constraint?_directive {rule : Rule} {model : Model} {settings : Settings} {key : String}
    {value : Json} {task task' : Task}
    (h : rule.applyTo model settings key value task = (task', none))
    (hrule : ∀ type, rule ≠ .column type) (column : String) :
    task'.constraint? column = task.constraint? column := by
  cases rule with
  | model =>
    obtain rfl : task = task' := (Prod.mk.inj h).1
    rfl
  | field =>
    obtain ⟨_, _, -, -, -, rfl⟩ := applyField_ok h
    rfl
  | sort =>
    obtain ⟨_, rfl⟩ := applySort_ok h
    rfl
  | pagination =>
    obtain ⟨_, -, rfl⟩ := applyPagination_ok h
    rfl
  | column type => exact absurd rfl (hrule type)

/-- A rule constrains no column but that of its key. -/
theorem constraint?_apply {rule : Rule} {model : Model} {settings : Settings} {key : String}
    {value : Json} {task task' : Task}
    (h : rule.applyTo model settings key value task = (task', none))
    {column : String} (hne : key ≠ column) : task'.constraint? column = task.constraint? column := by
  cases rule with
  | column type =>
    obtain ⟨constraint, rfl⟩ := applyColumn_ok h
    rw [Task.constraint?_constrain, if_neg hne]
  | _ => exact constraint?_directive h (by simp) column

end Rule

namespace Catalog

variable {catalog : Catalog} {model : Model}

/-- Keys other than that of a column leave its constraint alone. -/
theorem constraint?_applyRules {task : Task} {fields : Record} {column : String}
    (h : column ∉ Keyed.keys fields) :
    (catalog.applyRules model task fields).1.constraint? column = task.constraint? column := by
  fun_induction applyRules catalog model task fields with
  | case1 => rfl
  | case2 => rfl
  | case3 _ _ _ _ _ _ ih => exact ih fun hmem => h (List.mem_cons_of_mem _ hmem)
  | case4 _ _ _ _ _ _ _ _ _ happly =>
    obtain rfl := Rule.eq_of_applyTo happly
    rfl
  | case5 _ _ _ _ _ _ _ _ happly ih =>
    rw [ih fun hmem => h (List.mem_cons_of_mem _ hmem)]
    exact Rule.constraint?_apply happly fun heq => h (heq ▸ List.mem_cons_self ..)

/-- **What a node writes under a column is what the rules put into the filter.** -/
theorem read_applyRules {task task' : Task} {fields : Record}
    (hkeys : (Keyed.keys fields).Nodup) (h : catalog.applyRules model task fields = (task', none))
    {column : String} {value : Json} {type : ColumnType} (hfield : (column, value) ∈ fields)
    (hrule : model.rule? catalog.settings.keys column = some (.column type)) :
    ∃ constraint, task'.constraint? column = some constraint ∧
      type.read? task.batch.isGroup value = some constraint := by
  fun_induction applyRules catalog model task fields with
  | case1 => cases hfield
  | case2 => cases (Prod.mk.inj h).2
  | case3 task key first rest _ hnone ih =>
    refine ih (List.nodup_cons.1 hkeys).2 h ((List.mem_cons.1 hfield).resolve_left fun heq => ?_)
    obtain ⟨rfl, rfl⟩ := Prod.mk.inj heq
    rw [hrule] at hnone
    cases hnone
  | case4 => cases (Prod.mk.inj h).2
  | case5 task key first rest _ rule hfound ruled happly ih =>
    obtain ⟨hkey, hrest⟩ := List.nodup_cons.1 hkeys
    rcases List.mem_cons.1 hfield with heq | hfield
    · obtain ⟨rfl, rfl⟩ := Prod.mk.inj heq
      obtain rfl := Option.some.inj (hfound.symm.trans hrule)
      obtain ⟨constraint, hread, rfl⟩ := Rule.applyColumn_read happly
      refine ⟨constraint, ?_, hread⟩
      have hlater : (catalog.applyRules model (task.constrain column constraint)
          rest).1.constraint? column = (task.constrain column constraint).constraint? column :=
        constraint?_applyRules hkey
      rw [h, Task.constraint?_constrain, if_pos rfl] at hlater
      exact hlater
    · rw [← (Rule.apply_extends happly).batch]
      exact ih hrest h hfield

/-- And the rules put nothing else there. -/
theorem written_of_applyRules {task task' : Task} {fields : Record}
    (h : catalog.applyRules model task fields = (task', none)) {column : String}
    {constraint : Constraint} (hconstraint : task'.constraint? column = some constraint) :
    task.constraint? column = some constraint ∨
      ∃ value type, (column, value) ∈ fields ∧
        model.rule? catalog.settings.keys column = some (.column type) ∧
        type.read? task.batch.isGroup value = some constraint := by
  fun_induction applyRules catalog model task fields with
  | case1 =>
    obtain ⟨rfl, -⟩ := Prod.mk.inj h
    exact Or.inl hconstraint
  | case2 => cases (Prod.mk.inj h).2
  | case3 _ _ _ _ _ _ ih =>
    refine (ih h).imp_right ?_
    rintro ⟨value, type, hmem, hwritten⟩
    exact ⟨value, type, List.mem_cons_of_mem _ hmem, hwritten⟩
  | case4 => cases (Prod.mk.inj h).2
  | case5 task key first rest _ rule hfound ruled happly ih =>
    rcases ih h with hruled | ⟨value, type, hmem, hwritten⟩
    · by_cases hkey : key = column
      · subst hkey
        cases rule with
        | column type =>
          obtain ⟨read, hread, rfl⟩ := Rule.applyColumn_read happly
          rw [Task.constraint?_constrain, if_pos rfl] at hruled
          obtain rfl := Option.some.inj hruled
          exact Or.inr ⟨first, type, List.mem_cons_self .., hfound, hread⟩
        | _ => exact Or.inl ((Rule.constraint?_directive happly (by simp) _).symm.trans hruled)
      · exact Or.inl ((Rule.constraint?_apply happly hkey).symm.trans hruled)
    · rw [(Rule.apply_extends happly).batch] at hwritten
      exact Or.inr ⟨value, type, List.mem_cons_of_mem _ hmem, hwritten⟩

/-! ## Nodes and their tasks -/

/-- Somewhere among some nodes, compiled to some branches, stands a node of a model with some
fields, and this is its task. -/
inductive Writes (catalog : Catalog) :
    Record → List Branch → Resolved → Record → Task → Prop where
  | here {key : String} {value : Json} {rest : Record} {task : Task}
      {nested branches : List Branch} {resolved : Resolved} {fields : Record} :
      catalog.resolveNode key value = .ok resolved → value.nodeFields? = some fields →
      Writes catalog ((key, value) :: rest) (.node task nested :: branches) resolved fields task
  | inside {key : String} {value : Json} {rest outer : Record} {task : Task}
      {nested branches : List Branch} {home resolved : Resolved} {fields : Record} {inner : Task} :
      catalog.resolveNode key value = .ok home → value.nodeFields? = some outer →
      Writes catalog (catalog.nestedFields home.model outer) nested resolved fields inner →
      Writes catalog ((key, value) :: rest) (.node task nested :: branches) resolved fields inner
  | behind {node : String × Json} {rest : Record} {branch : Branch} {branches : List Branch}
      {resolved : Resolved} {fields : Record} {task : Task} :
      Writes catalog rest branches resolved fields task →
      Writes catalog (node :: rest) (branch :: branches) resolved fields task

/-- The model of a node is found by its name alone, below a parent as well as at the top. -/
theorem resolveNode_of_opens {parent : Option (Model × Task)} {key : String} {value : Json}
    {start : Task} (h : catalog.opens parent key value = .ok (model, start)) :
    ∃ resolved, catalog.resolveNode key value = .ok resolved ∧ resolved.model = model ∧
      start.batch.isGroup = resolved.isGroup := by
  cases parent with
  | none =>
    cases hres : catalog.resolveNode key value with
    | error fault => simp [opens, hres] at h
    | ok resolved =>
      simp only [opens, hres, Except.ok.injEq, Prod.mk.injEq] at h
      obtain ⟨rfl, rfl⟩ := h
      exact ⟨resolved, rfl, rfl, by simp⟩
  | some home =>
    cases hres : catalog.resolveNode key value with
    | error fault => simp [opens, resolveNested, hres] at h
    | ok resolved =>
      simp only [opens, resolveNested, hres] at h
      split at h
      · next child link hlink =>
        split at hlink
        · obtain ⟨rfl, rfl⟩ := Prod.mk.inj (Except.ok.inj hlink)
          obtain ⟨rfl, rfl⟩ := Prod.mk.inj (Except.ok.inj h)
          exact ⟨_, rfl, rfl, by simp⟩
        · cases hlink
      · cases h

theorem not_writes_nil {nodes : Record} {resolved : Resolved} {fields : Record} {task : Task} :
    ¬ catalog.Writes nodes [] resolved fields task := by
  intro h
  cases h

/-- The task of a node is among those of the forest. -/
theorem Writes.mem_tasksOf {nodes : Record} {branches : List Branch} {resolved : Resolved}
    {fields : Record} {task : Task} (h : catalog.Writes nodes branches resolved fields task) :
    task ∈ Branch.tasksOf branches := by
  induction h with
  | here => simp
  | inside _ _ _ ih => simp [ih]
  | @behind _ _ branch _ _ _ _ _ ih =>
    obtain ⟨root, nested⟩ := branch
    simp [ih]

/-- If no two tasks of a forest are the same, a task is that of one node. -/
theorem Writes.unique {nodes : Record} {branches : List Branch} {resolved other : Resolved}
    {fields more : Record} {task : Task} (h : catalog.Writes nodes branches resolved fields task)
    (hnodup : (Branch.tasksOf branches).Nodup)
    (hother : catalog.Writes nodes branches other more task) : resolved = other ∧ fields = more := by
  induction h with
  | here hfound hwritten =>
    rw [Branch.tasksOf_node, List.nodup_cons, List.mem_append, not_or] at hnodup
    cases hother with
    | here hfound' hwritten' =>
      exact ⟨Except.ok.inj (hfound.symm.trans hfound'), Option.some.inj (hwritten.symm.trans hwritten')⟩
    | inside _ _ hinner => exact absurd hinner.mem_tasksOf hnodup.1.1
    | behind hrest => exact absurd hrest.mem_tasksOf hnodup.1.2
  | inside hfound hwritten hinner ih =>
    rw [Branch.tasksOf_node, List.nodup_cons, List.mem_append, not_or, List.nodup_append'] at hnodup
    obtain ⟨hroot, hnested, -, hapart⟩ := hnodup
    cases hother with
    | here => exact absurd hinner.mem_tasksOf hroot.1
    | inside hfound' hwritten' hinner' =>
      obtain rfl := Except.ok.inj (hfound.symm.trans hfound')
      obtain rfl := Option.some.inj (hwritten.symm.trans hwritten')
      exact ih hnested hinner'
    | behind hrest => exact absurd hrest.mem_tasksOf (hapart hinner.mem_tasksOf)
  | @behind _ _ branch _ _ _ _ hrest ih =>
    obtain ⟨root, nested⟩ := branch
    rw [Branch.tasksOf_node, List.nodup_cons, List.mem_append, not_or, List.nodup_append'] at hnodup
    obtain ⟨hroot, -, hothers, hapart⟩ := hnodup
    cases hother with
    | here => exact absurd hrest.mem_tasksOf hroot.2
    | inside _ _ hinner => exact absurd hrest.mem_tasksOf (hapart hinner.mem_tasksOf)
    | behind hrest' => exact ih hothers hrest'

/-- A node that failed has no task that did not, and nor has anything in it. -/
theorem Writes.of_fail {node : String × Json} {rest : Record} {failed : Task} {fault : Fault}
    {branches : List Branch} {resolved : Resolved} {fields : Record} {task : Task}
    (h : catalog.Writes (node :: rest) ((Branch.fail failed fault).1 :: branches) resolved fields task)
    (hfailed : task.isFailed = false) : catalog.Writes rest branches resolved fields task := by
  have hroot := Branch.isFailed_fail failed fault
  unfold Branch.fail at h hroot
  cases h with
  | here => cases hroot.symm.trans hfailed
  | inside _ _ hinner => exact absurd hinner not_writes_nil
  | behind hrest => exact hrest

/-- A fresh task constrains nothing. -/
theorem constraint?_of_opens {parent : Option (Model × Task)} {key : String} {value : Json}
    {start : Task} (h : catalog.opens parent key value = .ok (model, start)) (column : String) :
    start.constraint? column = none := by
  obtain ⟨-, resolved, link, -, rfl, -⟩ := opens_ok h
  cases link <;> rfl

/-- The task of a node is about the model of the node, and comes of a fresh one by the rules of the
node's keys; what is nested in the node only makes it fetch and index more. -/
theorem Compiles.exists_ruled {parent : Option (Model × Task)} {nodes : Record}
    {branches : List Branch} {reports : List String}
    (h : catalog.Compiles parent nodes branches reports) (hnodes : (Json.obj nodes).Distinct)
    {resolved : Resolved} {fields : Record} {task : Task}
    (hwrites : catalog.Writes nodes branches resolved fields task)
    (hfailed : task.isFailed = false) :
    task.model = resolved.model.name ∧ ∃ start ruled nested, (Keyed.keys fields).Nodup ∧
      start.batch.isGroup = resolved.isGroup ∧ (∀ column, start.constraint? column = none) ∧
      catalog.applyRules resolved.model start fields = (ruled, none) ∧
      task = (Branch.grow (Branch.widen ruled nested).addJoinFields nested).root := by
  induction h with
  | nil => cases hwrites
  | unresolved hres _ ih =>
    cases hwrites with
    | here hfound => cases hres.symm.trans hfound
    | inside hfound => cases hres.symm.trans hfound
    | behind hrest => exact ih (hnodes.sublist (List.sublist_cons_self ..)) hrest
  | refused _ _ _ ih =>
    exact ih (hnodes.sublist (List.sublist_cons_self ..)) (hwrites.of_fail hfailed)
  | misruled _ _ _ _ ih =>
    exact ih (hnodes.sublist (List.sublist_cons_self ..)) (hwrites.of_fail hfailed)
  | broken _ _ _ _ _ _ _ _ ih =>
    exact ih (hnodes.sublist (List.sublist_cons_self ..)) (hwrites.of_fail hfailed)
  | @grown parent key value model start ruled outer _ nested _ _ _ hopens hvalue hrules _ _ ihnested
      ih =>
    obtain ⟨home, hhome, rfl, hgroup⟩ := resolveNode_of_opens hopens
    have hfields : (Json.obj outer).Distinct := Json.distinct_nodeFields hvalue
      (((Json.distinct_obj_iff _).1 hnodes).2 _ (List.mem_cons_self ..))
    cases hwrites with
    | here hfound hwritten =>
      obtain rfl := Except.ok.inj (hhome.symm.trans hfound)
      obtain rfl := Option.some.inj (hvalue.symm.trans hwritten)
      have hext : ruled.Extends start := by
        simpa [hrules] using catalog.applyRules_extends home.model start outer
      obtain ⟨-, fresh, link, hfresh, hstart, -⟩ := opens_ok hopens
      refine ⟨?_, start, ruled, nested, ((Json.distinct_obj_iff _).1 hfields).1, hgroup,
        constraint?_of_opens hopens, hrules, rfl⟩
      rw [← hfresh, ← Task.start_model fresh key (parent.map Prod.snd) link, ← hstart]
      exact ((Branch.widen_extends ruled nested).trans hext).model
    | inside hfound hwritten hinner =>
      obtain rfl := Except.ok.inj (hhome.symm.trans hfound)
      obtain rfl := Option.some.inj (hvalue.symm.trans hwritten)
      exact ihnested (hfields.sublist List.filter_sublist) hinner
    | behind hrest => exact ih (hnodes.sublist (List.sublist_cons_self ..)) hrest

section

variable {parent : Option (Model × Task)} {nodes : Record} {branches : List Branch}
  {reports : List String} {resolved : Resolved} {fields : Record} {task : Task}

/-- **The task of a node constrains what the node writes**, by what the value is read as. -/
theorem Compiles.reads (h : catalog.Compiles parent nodes branches reports)
    (hnodes : (Json.obj nodes).Distinct)
    (hwrites : catalog.Writes nodes branches resolved fields task) (hfailed : task.isFailed = false)
    {column : String} {value : Json} {type : ColumnType} (hfield : (column, value) ∈ fields)
    (hrule : resolved.model.rule? catalog.settings.keys column = some (.column type)) :
    ∃ constraint, task.constraint? column = some constraint ∧
      type.read? resolved.isGroup value = some constraint := by
  obtain ⟨-, start, ruled, nested, hkeys, hgroup, -, hrules, rfl⟩ :=
    h.exists_ruled hnodes hwrites hfailed
  rw [Branch.constraint?_grow, ← hgroup]
  exact read_applyRules hkeys hrules hfield hrule

/-- **And it constrains nothing else.** -/
theorem Compiles.written (h : catalog.Compiles parent nodes branches reports)
    (hnodes : (Json.obj nodes).Distinct)
    (hwrites : catalog.Writes nodes branches resolved fields task) (hfailed : task.isFailed = false)
    {column : String} {constraint : Constraint}
    (hconstraint : task.constraint? column = some constraint) :
    ∃ value type, (column, value) ∈ fields ∧
      resolved.model.rule? catalog.settings.keys column = some (.column type) ∧
      type.read? resolved.isGroup value = some constraint := by
  obtain ⟨-, start, ruled, nested, -, hgroup, hblank, hrules, rfl⟩ :=
    h.exists_ruled hnodes hwrites hfailed
  rw [Branch.constraint?_grow] at hconstraint
  rcases written_of_applyRules hrules hconstraint with hstart | hwritten
  · rw [hblank] at hstart
    cases hstart
  · rwa [hgroup] at hwritten

end

/-- A task that did not fail is that of a node, and is served as the model of the node is. -/
theorem Compiles.exists_writes {parent : Option (Model × Task)} {nodes : Record}
    {branches : List Branch} {reports : List String}
    (h : catalog.Compiles parent nodes branches reports) {task : Task}
    (hmem : task ∈ Branch.tasksOf branches) (hfailed : task.isFailed = false) :
    ∃ resolved fields, catalog.Writes nodes branches resolved fields task ∧
      resolved.model ∈ catalog.models ∧ task.executor = resolved.model.executor := by
  -- a node that failed has a task that failed, and none below it
  have hfail : ∀ {node : String × Json} {failed : Task} {fault : Fault} {rest : Record}
      {branches : List Branch}, (task ∈ Branch.tasksOf branches →
        ∃ resolved fields, catalog.Writes rest branches resolved fields task ∧
          resolved.model ∈ catalog.models ∧ task.executor = resolved.model.executor) →
      task ∈ Branch.tasksOf ((Branch.fail failed fault).1 :: branches) →
      ∃ resolved fields,
        catalog.Writes (node :: rest) ((Branch.fail failed fault).1 :: branches) resolved fields
          task ∧ resolved.model ∈ catalog.models ∧ task.executor = resolved.model.executor := by
    intro node failed fault rest branches hrest hmem
    have hroot := Branch.isFailed_fail failed fault
    rw [Branch.fail, Branch.tasksOf_node, Branch.tasksOf_nil, List.nil_append, List.mem_cons] at hmem
    rcases hmem with rfl | hmem
    · cases hroot.symm.trans hfailed
    · obtain ⟨resolved, fields, hwrites, hserved⟩ := hrest hmem
      exact ⟨resolved, fields, .behind hwrites, hserved⟩
  induction h with
  | nil => simp at hmem
  | unresolved _ _ ih =>
    rw [Branch.tasksOf_node, Branch.tasksOf_nil, List.nil_append, List.mem_cons] at hmem
    rcases hmem with rfl | hmem
    · cases hfailed
    · obtain ⟨resolved, fields, hwrites, hserved⟩ := ih hmem
      exact ⟨resolved, fields, .behind hwrites, hserved⟩
  | refused _ _ _ ih => exact hfail ih hmem
  | misruled _ _ _ _ ih => exact hfail ih hmem
  | broken _ _ _ _ _ _ _ _ ih => exact hfail ih hmem
  | @grown _ _ _ model start ruled fields _ nested _ _ _ hopens hvalue hrules _ _ ihnested ih =>
    obtain ⟨home, hhome, hmodel, -⟩ := resolveNode_of_opens hopens
    rw [Branch.grow, Branch.tasksOf_node, List.mem_cons, List.mem_append] at hmem
    rcases hmem with rfl | hmem | hmem
    · have hext : ruled.Extends start := by
        simpa [hrules] using catalog.applyRules_extends model start fields
      have hserved := ((Branch.widen_extends ruled nested).trans hext).executor
      obtain ⟨hmem, resolved, link, rfl, rfl, -⟩ := opens_ok hopens
      exact ⟨home, fields, .here hhome hvalue, hmodel ▸ hmem,
        hmodel ▸ hserved.trans (Task.start_served ..).2⟩
    · subst hmodel
      obtain ⟨resolved, fields, hwrites, hserved⟩ := ihnested hmem
      exact ⟨resolved, fields, .inside hhome hvalue hwrites, hserved⟩
    · obtain ⟨resolved, fields, hwrites, hserved⟩ := ih hmem
      exact ⟨resolved, fields, .behind hwrites, hserved⟩

end Catalog

end NestedQuery
