import NestedQuery.Plan.Compile
/-!
# Compiling, as a relation

What compiling a list of nodes gives, told without the order in which
the compiler goes about it. `Catalog.Compiles` has one rule for each end
a node may come to, and each rule names the task the node started as,
the task its rules made of it, and what was compiled below. Everything
that holds of all plans is read off this relation (`compiles_forest`),
never off the compiler itself.

A nested node reads of its parent only the place: the path and whether
it may have several records (`Task.start_congr`). So the relation may
name the parent as it is in the end, with all the columns it is joined
on, where the compiler passes it on half finished.
-/

namespace NestedQuery

namespace Branch

/-! ## Forests -/

/-- What holds of no branch at all, and of a branch in front of others if it holds of what is
nested in it and of the others, holds of every list of branches. -/
@[elab_as_elim]
theorem forest_induction {P : List Branch → Prop} (nil : P [])
    (node : ∀ task nested rest, P nested → P rest → P (.node task nested :: rest)) :
    ∀ branches, P branches
  | [] => nil
  | .node task nested :: rest =>
    node task nested rest (forest_induction nil node nested) (forest_induction nil node rest)

@[simp] theorem root_node (task : Task) (nested : List Branch) : (node task nested).root = task :=
  rfl

@[simp] theorem tasksOf_nil : tasksOf [] = [] := by
  rw [tasksOf]

@[simp] theorem tasksOf_node (task : Task) (nested rest : List Branch) :
    tasksOf (.node task nested :: rest) = task :: (tasksOf nested ++ tasksOf rest) := by
  rw [tasksOf, tasks, List.cons_append]

theorem tasksOf_append (first last : List Branch) :
    tasksOf (first ++ last) = tasksOf first ++ tasksOf last := by
  induction first with
  | nil => simp
  | cons branch rest ih =>
    obtain ⟨task, nested⟩ := branch
    simp [ih]

theorem root_mem_tasksOf {branches : List Branch} {branch : Branch} (h : branch ∈ branches) :
    branch.root ∈ tasksOf branches := by
  induction branches with
  | nil => cases h
  | cons first rest ih =>
    obtain ⟨task, nested⟩ := first
    rw [tasksOf_node, List.mem_cons, List.mem_append]
    rcases List.mem_cons.1 h with rfl | h
    · exact Or.inl rfl
    · exact Or.inr (Or.inr (ih h))

/-- A task with the columns that the branches nested in it join to. -/
def widen (task : Task) : List Branch → Task
  | [] => task
  | branch :: rest =>
    match branch.root.link with
    | some link => widen (task.addJoinColumn link.referencedKey) rest
    | none => widen task rest

end Branch

/-! ## What a task keeps while it is compiled -/

namespace Task

/-- A task made of another one of the same node: its place, its link and those who serve it are
as they were, its path and its columns to index may have become more. -/
structure Extends (task start : Task) : Prop where
  model : task.model = start.model
  parser : task.parser = start.parser
  executor : task.executor = start.executor
  batch : task.batch = start.batch
  isNested : task.isNested = start.isNested
  link : task.link = start.link
  parentKeys : task.path.parentKeys = start.path.parentKeys
  keys : start.path.keys <+: task.path.keys
  joinColumns : start.joinColumns ⊆ task.joinColumns

namespace Extends

variable {task mid start : Task}

theorem refl (task : Task) : task.Extends task :=
  ⟨rfl, rfl, rfl, rfl, rfl, rfl, rfl, List.prefix_rfl, List.Subset.refl _⟩

theorem trans (h : task.Extends mid) (h' : mid.Extends start) : task.Extends start where
  model := h.model.trans h'.model
  parser := h.parser.trans h'.parser
  executor := h.executor.trans h'.executor
  batch := h.batch.trans h'.batch
  isNested := h.isNested.trans h'.isNested
  link := h.link.trans h'.link
  parentKeys := h.parentKeys.trans h'.parentKeys
  keys := h'.keys.trans h.keys
  joinColumns := List.Subset.trans h'.joinColumns h.joinColumns

end Extends

theorem subset_addJoinColumn (task : Task) (column : String) :
    task.joinColumns ⊆ (task.addJoinColumn column).joinColumns := by
  unfold addJoinColumn
  split
  · exact List.Subset.refl _
  · exact List.subset_append_left _ _

theorem mem_addJoinColumn (task : Task) (column : String) :
    column ∈ (task.addJoinColumn column).joinColumns := by
  unfold addJoinColumn
  split
  · assumption
  · exact List.mem_append_right _ (List.mem_singleton_self _)

/-- Only the columns to index change. -/
theorem addJoinColumn_eq (task : Task) (column : String) :
    ∃ joinColumns, task.addJoinColumn column = { task with joinColumns } := by
  unfold addJoinColumn
  split
  · exact ⟨task.joinColumns, rfl⟩
  · exact ⟨_, rfl⟩

section

variable (task : Task) (column : String)

@[simp] theorem addJoinColumn_model : (task.addJoinColumn column).model = task.model := by
  obtain ⟨columns, heq⟩ := task.addJoinColumn_eq column
  rw [heq]

@[simp] theorem addJoinColumn_served : (task.addJoinColumn column).parser = task.parser ∧
    (task.addJoinColumn column).executor = task.executor := by
  obtain ⟨columns, heq⟩ := task.addJoinColumn_eq column
  rw [heq]
  exact ⟨rfl, rfl⟩

@[simp] theorem addJoinColumn_path : (task.addJoinColumn column).path = task.path := by
  obtain ⟨columns, heq⟩ := task.addJoinColumn_eq column
  rw [heq]

@[simp] theorem addJoinColumn_batch : (task.addJoinColumn column).batch = task.batch := by
  obtain ⟨columns, heq⟩ := task.addJoinColumn_eq column
  rw [heq]

@[simp] theorem addJoinColumn_isNested :
    (task.addJoinColumn column).isNested = task.isNested := by
  obtain ⟨columns, heq⟩ := task.addJoinColumn_eq column
  rw [heq]

@[simp] theorem addJoinColumn_link : (task.addJoinColumn column).link = task.link := by
  obtain ⟨columns, heq⟩ := task.addJoinColumn_eq column
  rw [heq]

@[simp] theorem addJoinColumn_fields : (task.addJoinColumn column).fields = task.fields := by
  obtain ⟨columns, heq⟩ := task.addJoinColumn_eq column
  rw [heq]

@[simp] theorem addJoinColumn_page : (task.addJoinColumn column).page = task.page := by
  obtain ⟨columns, heq⟩ := task.addJoinColumn_eq column
  rw [heq]

@[simp] theorem addJoinColumn_errors : (task.addJoinColumn column).errors = task.errors := by
  obtain ⟨columns, heq⟩ := task.addJoinColumn_eq column
  rw [heq]

end

theorem extends_addJoinColumn (task : Task) (column : String) :
    (task.addJoinColumn column).Extends task where
  model := task.addJoinColumn_model column
  parser := (task.addJoinColumn_served column).1
  executor := (task.addJoinColumn_served column).2
  batch := task.addJoinColumn_batch column
  isNested := task.addJoinColumn_isNested column
  link := task.addJoinColumn_link column
  parentKeys := by rw [task.addJoinColumn_path column]
  keys := (task.addJoinColumn_path column).symm ▸ List.prefix_rfl
  joinColumns := task.subset_addJoinColumn column

/-- A nested node reads of its parent the path and whether it may have several records. -/
theorem start_congr {resolved : Resolved} {key : String} {parent parent' : Task}
    {link : Option Link} (hpath : parent.path = parent'.path)
    (hbatch : parent.batch = parent'.batch) :
    start resolved key (some parent) link = start resolved key (some parent') link := by
  simp only [start, Option.map_some, Option.getD_some, Option.isSome_some, hpath, hbatch]

@[simp] theorem start_link (resolved : Resolved) (key : String) (parent : Option Task)
    (link : Option Link) : (start resolved key parent link).link = link := by
  cases link <;> rfl

end Task

namespace Branch

theorem widen_extends (task : Task) (nested : List Branch) : (widen task nested).Extends task := by
  induction nested generalizing task with
  | nil => exact .refl task
  | cons branch rest ih =>
    unfold widen
    split
    · exact (ih _).trans (task.extends_addJoinColumn _)
    · exact ih task

@[simp] theorem widen_path (task : Task) (nested : List Branch) :
    (widen task nested).path = task.path := by
  induction nested generalizing task with
  | nil => rfl
  | cons branch rest ih =>
    unfold widen
    split <;> simp [ih]

/-- Every column that a nested branch joins to is among those to index. -/
theorem mem_widen {task : Task} {nested : List Branch} {branch : Branch} {link : Link}
    (hmem : branch ∈ nested) (hlink : branch.root.link = some link) :
    link.referencedKey ∈ (widen task nested).joinColumns := by
  induction nested generalizing task with
  | nil => simp at hmem
  | cons other rest ih =>
    rcases List.mem_cons.1 hmem with rfl | hmem
    · rw [widen, hlink]
      exact (widen_extends _ rest).joinColumns (task.mem_addJoinColumn _)
    · rw [widen]
      split <;> exact ih hmem

end Branch

/-! ## Keys and their rules -/

/-- The key of a directive. -/
def Rule.directive? (keys : DirectiveKeys) : Rule → Option String
  | .model => some keys.model
  | .field => some keys.field
  | .sort => some keys.sort
  | .pagination => some keys.pagination
  | .column _ => none

namespace Model

variable {model : Model} {keys : DirectiveKeys} {key : String}

/-- The key of a directive has its rule; under any other key the column counts that was declared
last. -/
theorem rule?_cases (model : Model) (keys : DirectiveKeys) (key : String) :
    (∃ rule : Rule, rule.directive? keys = some key ∧ model.rule? keys key = some rule) ∨
      (∀ rule : Rule, rule.directive? keys ≠ some key) ∧
        model.rule? keys key = (model.columns.reverse.find? fun column => column.key = key).map
          fun column => .column column.type := by
  unfold rule?
  split
  · next heq => exact Or.inl ⟨.pagination, congrArg some heq.symm, rfl⟩
  · next hpagination =>
    split
    · next heq => exact Or.inl ⟨.sort, congrArg some heq.symm, rfl⟩
    · next hsort =>
      split
      · next heq => exact Or.inl ⟨.field, congrArg some heq.symm, rfl⟩
      · next hfield =>
        split
        · next heq => exact Or.inl ⟨.model, congrArg some heq.symm, rfl⟩
        · next hmodel =>
          refine Or.inr ⟨fun rule hrule => ?_, rfl⟩
          cases rule with
          | model => exact hmodel (Option.some.inj hrule).symm
          | field => exact hfield (Option.some.inj hrule).symm
          | sort => exact hsort (Option.some.inj hrule).symm
          | pagination => exact hpagination (Option.some.inj hrule).symm
          | column type => cases hrule

/-- A directive stands under its key only. -/
theorem key_of_directive {rule : Rule} (h : model.rule? keys key = some rule) :
    ∀ name ∈ rule.directive? keys, key = name := by
  intro name hname
  rcases model.rule?_cases keys key with ⟨directive, hkey, hrule⟩ | ⟨-, hrule⟩
  · obtain rfl := Option.some.inj (h.symm.trans hrule)
    exact Option.some.inj (hkey.symm.trans hname)
  · obtain ⟨column, -, rfl⟩ := Option.map_eq_some_iff.1 (hrule.symm.trans h)
    cases hname

/-- A key that is read as a column is that of no directive, and the column is declared. -/
theorem exists_column {type : ColumnType} (h : model.rule? keys key = some (.column type)) :
    (∀ rule : Rule, rule.directive? keys ≠ some key) ∧ ∃ column,
      (model.columns.reverse.find? fun column => column.key = key) = some column ∧
        column.type = type := by
  rcases model.rule?_cases keys key with ⟨directive, hkey, hrule⟩ | ⟨hne, hrule⟩
  · obtain rfl := Option.some.inj (h.symm.trans hrule)
    cases hkey
  · obtain ⟨column, hcolumn, heq⟩ := Option.map_eq_some_iff.1 (hrule.symm.trans h)
    exact ⟨hne, column, hcolumn, Rule.column.inj heq⟩

/-- A key without rule is that of no directive, and no column. -/
theorem no_column (h : model.rule? keys key = none) :
    (∀ rule : Rule, rule.directive? keys ≠ some key) ∧
      ∀ column ∈ model.columns, column.key ≠ key := by
  rcases model.rule?_cases keys key with ⟨directive, -, hrule⟩ | ⟨hne, hrule⟩
  · cases h.symm.trans hrule
  · have hnone := List.find?_eq_none.1 (Option.map_eq_none_iff.1 (hrule.symm.trans h))
    exact ⟨hne, fun column hcolumn heq =>
      hnone column (List.mem_reverse.2 hcolumn) (decide_eq_true heq)⟩

end Model

/-! ## What a rule does to a task -/

namespace Rule

section

variable {rule : Rule} {model : Model} {settings : Settings} {key : String} {value : Json}
  {task task' : Task} {fault : RuleFault}

/-- A rule that goes well leaves the task that it makes. -/
theorem apply_ok_iff : rule.apply model settings key value task = .ok task' ↔
    rule.applyTo model settings key value task = (task', none) := by
  unfold apply
  rcases rule.applyTo model settings key value task with ⟨left, _ | fault⟩ <;> simp

/-- **A rule that fails leaves the task as it was.** -/
theorem eq_of_applyTo (h : rule.applyTo model settings key value task = (task', some fault)) :
    task' = task := by
  have hleft : ∀ {other : Task}, (other, (none : Option RuleFault)) ≠ (task', some fault) :=
    fun heq => nomatch (Prod.mk.inj heq).2
  cases rule with
  | model => exact absurd h hleft
  | field =>
    simp only [applyTo, applyField] at h
    split at h
    · split at h
      · exact (Prod.mk.inj h).1.symm
      · split at h
        · exact (Prod.mk.inj h).1.symm
        · exact absurd h hleft
    · exact (Prod.mk.inj h).1.symm
  | sort =>
    simp only [applyTo, applySort] at h
    split at h
    · exact absurd h hleft
    · exact (Prod.mk.inj h).1.symm
  | pagination =>
    simp only [applyTo, applyPagination] at h
    split at h
    · exact (Prod.mk.inj h).1.symm
    · exact absurd h hleft
  | column type =>
    simp only [applyTo, applyColumn] at h
    split at h
    · exact absurd h hleft
    · exact (Prod.mk.inj h).1.symm

theorem apply_error_iff : rule.apply model settings key value task = .error fault ↔
    rule.applyTo model settings key value task = (task, some fault) := by
  cases happly : rule.applyTo model settings key value task with
  | mk left found =>
    cases found with
    | none => simp [apply, happly]
    | some found =>
      obtain rfl := eq_of_applyTo happly
      simp [apply, happly]

end

/-- A field directive that passes writes the fields it lists, and temporary ones behind them. -/
theorem applyField_ok {model : Model} {value : Json} {task task' : Task}
    (h : applyField model value task = (task', none)) :
    ∃ spec listed, value = .str spec ∧ entries spec ≠ [] ∧
      readFields model [] (entries spec) = .ok listed ∧
      task' = { task with fields := some (withSpecial model listed) } := by
  cases value with
  | str spec =>
    cases hentries : entries spec with
    | nil => simp [applyField, hentries] at h
    | cons entry rest =>
      cases hread : readFields model [] (entry :: rest) with
      | error fault => simp [applyField, hentries, hread] at h
      | ok listed =>
        simp only [applyField, hentries, hread, Prod.mk.injEq, and_true] at h
        exact ⟨spec, listed, rfl, by simp [hentries], by rw [hentries, hread], h.symm⟩
  | _ => simp [applyField] at h

/-- A sort directive that passes writes the sort. -/
theorem applySort_ok {model : Model} {value : Json} {task task' : Task}
    (h : applySort model value task = (task', none)) :
    ∃ keys, task' = { task with sort := some keys } := by
  cases value with
  | str spec => exact ⟨_, (Prod.mk.inj h).1.symm⟩
  | _ => simp [applySort] at h

/-- A pagination directive that passes writes the page, and the path that goes with it. -/
theorem applyPagination_ok {defaults : PageDefaults} {value : Json} {task task' : Task}
    (h : applyPagination defaults value task = (task', none)) :
    ∃ page, readPage defaults value = .ok page ∧
      task' = { task with path := pagedPath defaults page task.path, page := some page } := by
  cases hpage : readPage defaults value with
  | error fault => simp [applyPagination, hpage] at h
  | ok page =>
    simp only [applyPagination, hpage, Prod.mk.injEq, and_true] at h
    exact ⟨page, rfl, h.symm⟩

/-- A column that passes constrains itself. -/
theorem applyColumn_ok {type : ColumnType} {key : String} {value : Json} {task task' : Task}
    (h : applyColumn type key value task = (task', none)) :
    ∃ constraint, task' = task.constrain key constraint := by
  simp only [applyColumn] at h
  split at h
  · exact ⟨_, (Prod.mk.inj h).1.symm⟩
  · cases (Prod.mk.inj h).2

@[simp] theorem pagedPath_parentKeys (defaults : PageDefaults) (page : Page) (path : NodePath) :
    (pagedPath defaults page path).parentKeys = path.parentKeys := by
  unfold pagedPath
  split <;> rfl

theorem prefix_pagedPath (defaults : PageDefaults) (page : Page) (path : NodePath) :
    path.keys <+: (pagedPath defaults page path).keys := by
  unfold pagedPath
  split
  · exact List.prefix_append _ _
  · exact List.prefix_rfl

/-- Whatever a rule writes into a task, the task goes on from where it was. -/
theorem apply_extends {rule : Rule} {model : Model} {settings : Settings} {key : String}
    {value : Json} {task task' : Task}
    (h : rule.applyTo model settings key value task = (task', none)) : task'.Extends task := by
  cases rule with
  | model =>
    obtain rfl : task = task' := (Prod.mk.inj h).1
    exact .refl task
  | field =>
    obtain ⟨_, _, -, -, -, rfl⟩ := applyField_ok h
    exact ⟨rfl, rfl, rfl, rfl, rfl, rfl, rfl, List.prefix_rfl, List.Subset.refl _⟩
  | sort =>
    obtain ⟨_, rfl⟩ := applySort_ok h
    exact ⟨rfl, rfl, rfl, rfl, rfl, rfl, rfl, List.prefix_rfl, List.Subset.refl _⟩
  | pagination =>
    obtain ⟨page, -, rfl⟩ := applyPagination_ok h
    exact ⟨rfl, rfl, rfl, rfl, rfl, rfl, pagedPath_parentKeys .., prefix_pagedPath ..,
      List.Subset.refl _⟩
  | column type =>
    obtain ⟨_, rfl⟩ := applyColumn_ok h
    exact ⟨rfl, rfl, rfl, rfl, rfl, rfl, rfl, List.prefix_rfl, List.Subset.refl _⟩

end Rule

theorem Catalog.applyRules_extends (catalog : Catalog) (model : Model) (task : Task)
    (fields : Record) : (catalog.applyRules model task fields).1.Extends task := by
  fun_induction Catalog.applyRules catalog model task fields with
  | case1 task => exact .refl task
  | case2 => exact .refl _
  | case3 task key value rest hnull hrule ih => exact ih
  | case4 task key value rest hnull rule hrule left fault happly =>
    obtain rfl := Rule.eq_of_applyTo happly
    exact .refl left
  | case5 task key value rest hnull rule hrule task' happly ih =>
    exact ih.trans (Rule.apply_extends happly)

/-! ## The relation -/

/-- The fields of a node: none if it is just true. Other values are no nodes. -/
def Json.nodeFields? : Json → Option Record
  | .bool true => some []
  | .obj fields => some fields
  | _ => none

namespace Catalog

/-- The fields of a node that name nested nodes. -/
def nestedFields (catalog : Catalog) (model : Model) (fields : Record) : Record :=
  fields.filter fun field => !catalog.hasRule model field.1

theorem not_hasRule_of_mem {catalog : Catalog} {model : Model} {fields : Record} {key : String}
    (h : key ∈ Keyed.keys (catalog.nestedFields model fields)) :
    catalog.hasRule model key = false := by
  obtain ⟨node, hnode, rfl⟩ := List.mem_map.1 h
  simpa using (List.mem_filter.1 hnode).2

/-- The model of a node and the task that the node starts as, below a parent or at the top. -/
def opens (catalog : Catalog) (parent : Option (Model × Task)) (key : String) (value : Json) :
    Except Fault (Model × Task) :=
  match parent with
  | none =>
    match catalog.resolveNode key value with
    | .ok resolved => .ok (resolved.model, .start resolved key none none)
    | .error fault => .error fault
  | some (model, task) =>
    match catalog.resolveNested model key value with
    | .ok (child, link) => .ok (child.model, .start child key (some task) (some link))
    | .error fault => .error fault

/-- Nodes under keys, below a parent or at the top, compile to branches and reports. -/
inductive Compiles (catalog : Catalog) :
    Option (Model × Task) → Record → List Branch → List String → Prop where
  | nil {parent : Option (Model × Task)} : Compiles catalog parent [] [] []
  /-- The model of a node at the top is not found. -/
  | unresolved {key : String} {value : Json} {fault : Fault} {rest : Record}
      {branches : List Branch} {reports : List String} :
      catalog.resolveNode key value = .error fault →
      Compiles catalog none rest branches reports →
      Compiles catalog none ((key, value) :: rest)
        (.node (.unresolved (catalog.nodeName key value) key (key ++ ": " ++ fault.message)) [] ::
          branches)
        ((key ++ ": " ++ fault.message) :: reports)
  /-- The value is no node. -/
  | refused {parent : Option (Model × Task)} {key : String} {value : Json} {model : Model}
      {start : Task} {rest : Record} {branches : List Branch} {reports : List String} :
      catalog.opens parent key value = .ok (model, start) → value.nodeFields? = none →
      Compiles catalog parent rest branches reports →
      Compiles catalog parent ((key, value) :: rest)
        ((Branch.fail start (.invalidValue key)).1 :: branches)
        ((Branch.fail start (.invalidValue key)).2 :: reports)
  /-- A key with a rule is at fault, or null is found. -/
  | misruled {parent : Option (Model × Task)} {key : String} {value : Json} {model : Model}
      {start task : Task} {fields rest : Record} {fault : Fault} {branches : List Branch}
      {reports : List String} :
      catalog.opens parent key value = .ok (model, start) → value.nodeFields? = some fields →
      catalog.applyRules model start fields = (task, some fault) →
      Compiles catalog parent rest branches reports →
      Compiles catalog parent ((key, value) :: rest)
        ((Branch.fail task fault).1 :: branches) ((Branch.fail task fault).2 :: reports)
  /-- A nested node has no model or no link; what was compiled before it is lost. -/
  | broken {parent : Option (Model × Task)} {key name : String} {value inner : Json} {model : Model}
      {start ruled : Task} {fields before after rest : Record} {fault : Fault}
      {lost branches : List Branch} {found reports : List String} :
      catalog.opens parent key value = .ok (model, start) → value.nodeFields? = some fields →
      catalog.applyRules model start fields = (ruled, none) →
      catalog.nestedFields model fields = before ++ (name, inner) :: after →
      Compiles catalog (some (model, Branch.widen ruled lost)) before lost found →
      catalog.resolveNested model name inner = .error fault →
      Compiles catalog parent rest branches reports →
      Compiles catalog parent ((key, value) :: rest)
        ((Branch.fail (Branch.widen ruled lost) fault).1 :: branches)
        (found ++ (Branch.fail (Branch.widen ruled lost) fault).2 :: reports)
  /-- All goes well. -/
  | grown {parent : Option (Model × Task)} {key : String} {value : Json} {model : Model}
      {start ruled : Task} {fields rest : Record} {nested branches : List Branch}
      {found reports : List String} :
      catalog.opens parent key value = .ok (model, start) → value.nodeFields? = some fields →
      catalog.applyRules model start fields = (ruled, none) →
      Compiles catalog (some (model, Branch.widen ruled nested)) (catalog.nestedFields model fields)
        nested found →
      Compiles catalog parent rest branches reports →
      Compiles catalog parent ((key, value) :: rest)
        (.grow (Branch.widen ruled nested).addJoinFields nested :: branches) (found ++ reports)

end Catalog

/-! ## The compiler keeps to the relation -/

namespace Catalog

variable {catalog : Catalog}

theorem Compiles.append {parent : Option (Model × Task)} {nodes more : Record}
    {branches branches' : List Branch} {reports reports' : List String}
    (h : catalog.Compiles parent nodes branches reports)
    (h' : catalog.Compiles parent more branches' reports') :
    catalog.Compiles parent (nodes ++ more) (branches ++ branches') (reports ++ reports') := by
  induction h with
  | nil => exact h'
  | unresolved hres _ ih => exact .unresolved hres (ih h')
  | refused hopens hvalue _ ih => exact .refused hopens hvalue (ih h')
  | misruled hopens hvalue hrules _ ih => exact .misruled hopens hvalue hrules (ih h')
  | broken hopens hvalue hrules hfields hlost hfault _ _ ih =>
    rw [List.append_assoc]
    exact .broken hopens hvalue hrules hfields hlost hfault (ih h')
  | grown hopens hvalue hrules hnested _ _ ih =>
    rw [List.append_assoc]
    exact .grown hopens hvalue hrules hnested (ih h')

/-- What is to be shown of compiling the nodes among some fields: the task gets the columns that
the branches join to, and the branches compile below any task that stands where it does, all of
them, or those before the node at fault. -/
def NestedCompiles (catalog : Catalog) (model : Model) (task : Task) (fields : Record)
    (nested : Nested) : Prop :=
  nested.task = Branch.widen task nested.branches ∧
    ∀ home : Task, home.path = task.path → home.batch = task.batch →
      match nested.fault with
      | none =>
        catalog.Compiles (some (model, home)) (catalog.nestedFields model fields) nested.branches
          nested.errors
      | some fault =>
        ∃ before name inner after,
          catalog.nestedFields model fields = before ++ (name, inner) :: after ∧
          catalog.resolveNested model name inner = .error fault ∧
          catalog.Compiles (some (model, home)) before nested.branches nested.errors

/-- The rules leave the link of a fresh task alone. -/
theorem link_of_applyRules {resolved : Resolved} {key : String}
    {parent : Option Task} {link : Option Link} {fields : Record} {task : Task} {fault : Option Fault}
    (hrules : catalog.applyRules resolved.model (.start resolved key parent link) fields =
      (task, fault)) : task.link = link := by
  have hext := applyRules_extends catalog resolved.model (.start resolved key parent link) fields
  rw [hrules] at hext
  exact hext.link.trans (Task.start_link ..)

/-- A nested node in front of others. -/
theorem NestedCompiles.cons {model : Model} {task : Task} {key : String} {value : Json}
    {rest : Record} {child : Resolved} {link : Link} {nested : Nested} {branch : Branch}
    {errors : List String}
    (hkey : catalog.hasRule model key = false)
    (hchild : catalog.resolveNested model key value = .ok (child, link))
    (hlink : branch.root.link = some link)
    (hbranch : ∀ home : Option (Model × Task),
      catalog.opens home key value =
        .ok (child.model, .start child key (some (task.addJoinColumn link.referencedKey))
          (some link)) →
      catalog.Compiles home [(key, value)] [branch] errors)
    (h : NestedCompiles catalog model (task.addJoinColumn link.referencedKey) rest nested) :
    NestedCompiles catalog model task ((key, value) :: rest)
      { nested with branches := branch :: nested.branches, errors := errors ++ nested.errors } := by
  obtain ⟨htask, hnested⟩ := h
  refine ⟨?_, fun home hpath hbatch => ?_⟩
  · show nested.task = Branch.widen task (branch :: nested.branches)
    rw [htask, Branch.widen, hlink]
  · have hfields : catalog.nestedFields model ((key, value) :: rest) =
        (key, value) :: catalog.nestedFields model rest := by
      simp [nestedFields, hkey]
    have hfirst : catalog.Compiles (some (model, home)) [(key, value)] [branch] errors := by
      refine hbranch _ ?_
      rw [opens, hchild]
      exact congrArg (fun start => Except.ok (child.model, start))
        (Task.start_congr (by simpa using hpath) (by simpa using hbatch))
    have hnested := hnested home (by simpa using hpath) (by simpa using hbatch)
    show match nested.fault with
      | none => _
      | some fault => _
    cases hfault : nested.fault with
    | none =>
      rw [hfault] at hnested
      rw [hfields]
      exact hfirst.append hnested
    | some fault =>
      rw [hfault] at hnested
      obtain ⟨before, name, inner, after, hsplit, hname, hbefore⟩ := hnested
      refine ⟨(key, value) :: before, name, inner, after, ?_, hname, hfirst.append hbefore⟩
      rw [hfields, hsplit, List.cons_append]

theorem compiles_compile_and_nested (catalog : Catalog) :
    (∀ (key : String) (resolved : Resolved) (parent : Option Task) (link : Option Link)
      (value : Json),
      (catalog.compile key resolved parent link value).1.root.link = link ∧
      ∀ home : Option (Model × Task),
        catalog.opens home key value = .ok (resolved.model, .start resolved key parent link) →
        catalog.Compiles home [(key, value)] [(catalog.compile key resolved parent link value).1]
          (catalog.compile key resolved parent link value).2) ∧
    ∀ (model : Model) (task : Task) (fields : Record),
      NestedCompiles catalog model task fields (catalog.compileNested model task fields) := by
  refine Catalog.compile.mutual_induct catalog _ _ ?_ ?_ ?_ ?_ ?_ ?_ ?_ ?_ ?_
  · -- just true
    intro key resolved parent link
    rw [compile]
    refine ⟨by simp [Branch.grow, Task.addJoinFields], fun home hopens => ?_⟩
    have hgrown := Compiles.grown hopens (rfl : (Json.bool true).nodeFields? = some []) rfl .nil .nil
    exact hgrown
  · -- the rules are at fault
    intro key resolved parent link fields task fault hrules branch report hfail
    have hlink := link_of_applyRules hrules
    rw [compile, hrules]
    exact ⟨hlink, fun home hopens => .misruled hopens rfl hrules .nil⟩
  · -- a nested node is at fault
    intro key resolved parent link fields task hrules nested fault hfault branch report hfail hnested
    obtain ⟨htask, hnested⟩ := hnested
    rw [compile, hrules]
    simp only [show (catalog.compileNested resolved.model task fields).fault = some fault from hfault]
    have hnested := hnested (Branch.widen task nested.branches) (Branch.widen_path ..)
      (Branch.widen_extends ..).batch
    rw [show (catalog.compileNested resolved.model task fields).fault = some fault from hfault]
      at hnested
    obtain ⟨before, name, inner, after, hsplit, hname, hbefore⟩ := hnested
    have hlink := (Branch.widen_extends task nested.branches).link.trans (link_of_applyRules hrules)
    rw [htask]
    refine ⟨hlink, fun home hopens => ?_⟩
    exact .broken hopens rfl hrules hsplit hbefore hname .nil
  · -- all goes well
    intro key resolved parent link fields task hrules nested hfault hnested
    obtain ⟨htask, hnested⟩ := hnested
    rw [compile, hrules]
    simp only [show (catalog.compileNested resolved.model task fields).fault = none from hfault]
    have hnested := hnested (Branch.widen task nested.branches) (Branch.widen_path ..)
      (Branch.widen_extends ..).batch
    rw [show (catalog.compileNested resolved.model task fields).fault = none from hfault] at hnested
    have hlink := (Branch.widen_extends task nested.branches).link.trans (link_of_applyRules hrules)
    rw [htask]
    refine ⟨hlink, fun home hopens => ?_⟩
    rw [← List.append_nil (catalog.compileNested resolved.model task fields).errors]
    exact .grown hopens rfl hrules hnested .nil
  · -- the value is no node
    intro value key resolved parent link branch report hfail htrue hobj
    have hvalue : value.nodeFields? = none := by
      cases value with
      | bool b => cases b <;> simp_all [Json.nodeFields?]
      | obj fields => exact absurd rfl (hobj fields)
      | _ => rfl
    rw [compile]
    · exact ⟨Task.start_link .., fun home hopens => .refused hopens hvalue .nil⟩
    · exact htrue
    · exact hobj
  · -- no more nodes
    intro model task
    exact ⟨rfl, fun home _ _ => .nil⟩
  · -- a key of the rules is passed over
    intro model task key value rest hkey ih
    have hfields : catalog.nestedFields model ((key, value) :: rest) =
        catalog.nestedFields model rest := by
      simp [nestedFields, hkey]
    rw [compileNested, if_pos hkey, NestedCompiles, hfields]
    exact ih
  · -- a node is not related
    intro model task key value rest hkey fault hfault
    rw [compileNested, if_neg hkey, hfault]
    refine ⟨rfl, fun home _ _ => ⟨[], key, value, catalog.nestedFields model rest, ?_, hfault, .nil⟩⟩
    simp [nestedFields, hkey]
  · -- one more node
    intro model task key value rest hkey child link hchild task' branch errors hcompile hbranch hrest
    rw [compileNested, if_neg hkey, hchild]
    exact .cons (by simpa using hkey) hchild hbranch.1 hbranch.2 hrest

/-- The branches of a request, one for each of its keys. -/
def forest (catalog : Catalog) (request : Record) : List Branch :=
  request.map fun node => (catalog.compileTop node.1 node.2).1

@[simp] theorem plan_tasks (catalog : Catalog) (request : Record) :
    (catalog.plan request).tasks = Branch.tasksOf (catalog.forest request) := by
  simp [plan, forest, Function.comp_def]

/-- **What a request compiles to, as a derivation.** -/
theorem compiles_forest (catalog : Catalog) (request : Record) :
    catalog.Compiles none request (catalog.forest request) (catalog.plan request).errors := by
  induction request with
  | nil => exact .nil
  | cons node rest ih =>
    obtain ⟨key, value⟩ := node
    have hforest : catalog.forest ((key, value) :: rest) =
        (catalog.compileTop key value).1 :: catalog.forest rest := rfl
    have herrors : (catalog.plan ((key, value) :: rest)).errors =
        (catalog.compileTop key value).2 ++ (catalog.plan rest).errors := by
      simp [plan]
    rw [hforest, herrors]
    cases hres : catalog.resolveNode key value with
    | error fault =>
      simp only [compileTop, hres]
      exact .unresolved hres ih
    | ok resolved =>
      simp only [compileTop, hres]
      refine .append (((compiles_compile_and_nested catalog).1 key resolved none none value).2 none ?_) ih
      rw [opens, hres]

end Catalog

end NestedQuery
