import NestedQuery.Proofs.Plan.Changing
import NestedQuery.Proofs.Plan.Stopping
/-!
# A node that fails, with its keys in another order

A node that fails for what stands under its own keys fails in any order
of them (`Catalog.Fails.perm`). Its task is one that failed in the same
place, but for the page key below its name, which is there if an enabled
page stands before the first field at fault (`Catalog.Fails.keys_eq`).

So a request with such a node in another order compiles to the same
branches but for this one, and but for this one all reports are the same
(`Catalog.Comes.changesTo`).
-/

namespace NestedQuery

open scoped List

theorem Json.Distinct.perm {fields fields' : Record} (h : (Json.obj fields).Distinct)
    (hperm : fields ~ fields') : (Json.obj fields').Distinct := by
  rw [distinct_obj_iff] at h ⊢
  exact ⟨(hperm.map Prod.fst).nodup h.1, fun field hmem => h.2 field (hperm.mem_iff.2 hmem)⟩

/-! ## The node -/

/-- A node that is come to: the node around it if there is one, the key and the fields of the node,
and the paths under which the records of the nodes around it stand, each below those of the one
before. -/
structure Catalog.Spot where
  home : Option (Model × Task)
  name : String
  fields : Record
  paths : List (List String)

/-- From a node, keys lead to a node inside it that is come to when a request is compiled: the rules
of all nodes around it go well, and no node before it ends the compiling. -/
inductive Catalog.Comes (catalog : Catalog) :
    Option (Model × Task) → String → Record → List String → Spot → Prop where
  | here {home : Option (Model × Task)} {name : String} {fields : Record} :
      Comes catalog home name fields [] ⟨home, name, fields, []⟩
  | inside {home : Option (Model × Task)} {name next : String} {fields inner before after : Record}
      {model : Model} {start ruled : Task} {below : List String} {spot : Spot} :
      catalog.opens home name (.obj fields) = .ok (model, start) →
      catalog.applyRules model start fields = (ruled, none) →
      catalog.nestedFields model fields = before ++ (next, .obj inner) :: after →
      (∀ node ∈ before, ∃ found, catalog.opens (some (model, ruled)) node.1 node.2 = .ok found) →
      Comes catalog (some (model, ruled)) next inner below spot →
      Comes catalog home name fields (next :: below)
        { spot with paths := ruled.path.keys :: spot.paths }

/-- A node fails for what stands under its own keys: it leaves a task that failed, and a report. A
nested node without a model is not meant; it is the node around it that fails. -/
inductive Catalog.Fails (catalog : Catalog) (home : Option (Model × Task)) (name : String)
    (fields : Record) : Task → String → Prop where
  | unresolved {fault : Fault} : home = none →
      catalog.resolveNode name (.obj fields) = .error fault →
      Fails catalog home name fields
        (.unresolved (catalog.nodeName name (.obj fields)) name (name ++ ": " ++ fault.message))
        (name ++ ": " ++ fault.message)
  | misruled {model : Model} {start task : Task} {fault : Fault} :
      catalog.opens home name (.obj fields) = .ok (model, start) →
      catalog.applyRules model start fields = (task, some fault) →
      Fails catalog home name fields (Branch.fail task fault).1.root (Branch.fail task fault).2

/-- The keys under which the null of a node that fails is written, into the records of the node around
it or at the top: its name, and the page key below it if an enabled page stands before the first field
at fault. -/
def Catalog.nullKeys (catalog : Catalog) (home : Option (Model × Task)) (name : String)
    (fields : Record) : List String :=
  match catalog.opens home name (.obj fields) with
  | .error _ => [name]
  | .ok (model, start) =>
    if catalog.turnsPage (catalog.cleared model start fields) ∧ catalog.settings.pagination.key ≠ name
    then [name, catalog.settings.pagination.key] else [name]

/-- A request with other fields in the node at an address. -/
def Record.refill : Record → List String → Record → Record
  | _, [], fields => fields
  | nodes, name :: address, fields =>
    Keyed.adjust (Json.onRecords fun inner => refill inner address fields) nodes name

/-- Two tasks that failed at one node: what rules wrote may differ, the end of the path among it. -/
structure Task.FailedAlike (name : String) (task task' : Task) : Prop where
  failed : task.isFailed = true
  failed' : task'.isFailed = true
  segment : task.path.keys.head? = some name
  segment' : task'.path.keys.head? = some name
  parentKeys : task'.path.parentKeys = task.path.parentKeys
  link : task'.link = task.link
  batch : task'.batch = task.batch
  isNested : task'.isNested = task.isNested
  childCount : task'.childCount = task.childCount

/-- Two tasks that go on from the fresh one of a node, and fail. -/
theorem Branch.failedAlike_fail {name : String} {start task task' : Task} (h : task.Extends start)
    (h' : task'.Extends start) (hstart : start.path.keys = [name]) (fault fault' : Fault) :
    (fail task fault).1.root.FailedAlike name (fail task' fault').1.root := by
  have hsegment : ∀ {task : Task}, task.Extends start → task.path.keys.head? = some name := by
    intro task hextends
    obtain ⟨more, hkeys⟩ := hextends.keys
    rw [← hkeys, hstart]
    rfl
  exact
    { failed := isFailed_fail task fault
      failed' := isFailed_fail task' fault'
      segment := show task.path.keys.head? = some name from hsegment h
      segment' := show task'.path.keys.head? = some name from hsegment h'
      parentKeys := h'.parentKeys.trans h.parentKeys.symm
      link := h'.link.trans h.link.symm
      batch := h'.batch.trans h.batch.symm
      isNested := h'.isNested.trans h.isNested.symm
      childCount := rfl }

theorem Task.FailedAlike.path_eq {name : String} {task task' : Task} (h : task.FailedAlike name task')
    (hkeys : task'.path.keys = task.path.keys) : task'.path = task.path := by
  show (⟨task'.path.keys, task'.path.parentKeys⟩ : NodePath) = task.path
  rw [hkeys, h.parentKeys]

namespace Catalog

variable {catalog : Catalog} {home : Option (Model × Task)} {name : String}
  {fields fields' : Record} {model : Model} {start task task' : Task} {report report' : String}

/-! ## The failure in any order of the keys -/

/-- The model directive is found in any order. -/
theorem directive_perm (catalog : Catalog) (hperm : fields ~ fields')
    (hfields : (Json.obj fields).Distinct) :
    (Json.obj fields').get? catalog.settings.keys.model =
      (Json.obj fields).get? catalog.settings.keys.model :=
  Keyed.get?_perm hperm ((Json.distinct_obj_iff _).1 hfields).1

theorem opens_fresh {value : Json} (h : catalog.opens home name value = .ok (model, start)) :
    start.path.keys = [name] := by
  obtain ⟨-, resolved, link, -, rfl, -⟩ := opens_ok h
  rw [Task.start_path]

namespace Fails

/-- A node that is opened fails if its rules meet a fault. -/
theorem exists_of_fault (hopens : catalog.opens home name (.obj fields) = .ok (model, start))
    (hfault : (catalog.applyRules model start fields).2.isSome = true) :
    ∃ task report, catalog.Fails home name fields task report := by
  obtain ⟨fault, hfault⟩ := Option.isSome_iff_exists.1 hfault
  exact ⟨_, _, .misruled hopens (Prod.ext (Eq.refl _) hfault)⟩

theorem compiles (h : catalog.Fails home name fields task report) :
    catalog.Compiles home [(name, .obj fields)] [.node task []] [report] := by
  cases h with
  | unresolved hhome hresolve =>
    subst hhome
    exact .unresolved hresolve .nil
  | misruled hopens hrules => exact .misruled hopens rfl hrules .nil

/-- **A node that fails for its own keys does so in any order of them.** -/
theorem perm (h : catalog.Fails home name fields task report) (hperm : fields ~ fields')
    (hfields : (Json.obj fields).Distinct) :
    ∃ task' report', catalog.Fails home name fields' task' report' ∧ task.FailedAlike name task' := by
  have hdirective := directive_perm catalog hperm hfields
  cases h with
  | @unresolved fault hhome hresolve =>
    have hfails := Fails.unresolved hhome ((resolveNode_congr_value hdirective).trans hresolve)
    rw [nodeName_congr_value hdirective] at hfails
    exact ⟨_, _, hfails, rfl, rfl, rfl, rfl, rfl, rfl, rfl, rfl, rfl⟩
  | @misruled model start task fault hopens hrules =>
    obtain ⟨task', fault', hrules'⟩ := exists_fault_perm hperm hrules
    exact ⟨_, _, .misruled ((opens_congr_value hdirective).trans hopens) hrules',
      Branch.failedAlike_fail (extends_of_rules hrules) (extends_of_rules hrules') (opens_fresh hopens)
        fault fault'⟩

/-- **Where the null of a node goes that fails.** -/
theorem keys_eq (h : catalog.Fails home name fields task report)
    (hfields : (Json.obj fields).Distinct) : task.path.keys = catalog.nullKeys home name fields := by
  cases h with
  | unresolved hhome hresolve =>
    subst hhome
    rw [nullKeys, opens, hresolve]
    rfl
  | @misruled model start task fault hopens hrules =>
    have hkeys : (catalog.applyRules model start fields).1.path.keys = _ :=
      keys_stopped ((Json.distinct_obj_iff _).1 hfields).1
    rw [hrules, opens_fresh hopens] at hkeys
    rw [nullKeys, hopens]
    refine hkeys.trans ?_
    simp only [List.mem_singleton, List.singleton_append]

theorem isNested_eq (h : catalog.Fails home name fields task report) :
    task.isNested = home.isSome := by
  cases h with
  | unresolved hhome =>
    subst hhome
    rfl
  | @misruled model start task fault hopens hrules =>
    have hnested := (extends_of_rules hrules).isNested
    obtain ⟨-, resolved, link, -, rfl, -⟩ := opens_ok hopens
    refine hnested.trans ?_
    rw [Task.start_isNested, Option.isSome_map]

end Fails

end Catalog

/-! ## Forests that differ in a failed task -/

/-- Two forests that differ in one task, which failed. The paths lead to the task it is nested in. -/
inductive Branch.Swapped (task task' : Task) :
    List (List String) → List Branch → List Branch → Prop where
  /-- What was compiled around the task was lost. -/
  | lost {paths : List (List String)} {branches : List Branch} :
      Swapped task task' paths branches branches
  | among {paths : List (List String)} {branches branches' : List Branch}
      (before after : List Branch) :
      Swapped task task' paths branches branches' →
      Swapped task task' paths (before ++ (branches ++ after)) (before ++ (branches' ++ after))
  | inside {path : List String} {paths : List (List String)} {nested nested' : List Branch}
      {host : Task} :
      host.path.keys = path → Swapped task task' paths nested nested' →
      Swapped task task' (path :: paths) [.grow host nested] [.grow host nested']
  | here : Swapped task task' [] [.node task []] [.node task' []]

theorem Branch.congruent_swapped {task task' : Task} (hlink : task'.link = task.link) :
    Congruent (Swapped task task') where
  lost := fun _ _ => .lost
  among := .among
  inside := .inside
  widen := fun h host => by
    refine widen_congr ?_ host
    induction h with
    | lost => rfl
    | among _ _ _ ih => rw [List.map_append, List.map_append, List.map_append, List.map_append, ih]
    | inside _ _ => rfl
    | here => exact congrArg (fun link => [link]) hlink.symm

/-! ## The request with the node in another order -/

theorem Record.refill_at {before after inner : Record} {name : String}
    (h : (Json.obj (before ++ (name, .obj inner) :: after)).Distinct) (address : List String)
    (fields : Record) :
    Record.refill (before ++ (name, .obj inner) :: after) (name :: address) fields =
      before ++ (name, .obj (Record.refill inner address fields)) :: after := by
  rw [refill, Keyed.adjust_at ((Json.distinct_obj_iff _).1 h).1]
  rfl

theorem Record.refill_distinct {fields : Record} (hfields : (Json.obj fields).Distinct)
    (address : List String) {nodes : Record} (h : (Json.obj nodes).Distinct) :
    (Json.obj (nodes.refill address fields)).Distinct := by
  induction address generalizing nodes with
  | nil => exact hfields
  | cons name address ih =>
    exact Json.adjust_distinct
      (fun value hvalue => Json.onRecords_distinct (fun _ => ih) hvalue) h name

namespace Catalog.Comes

variable {catalog : Catalog} {home : Option (Model × Task)} {name : String}
  {fields fields' : Record} {below : List String} {spot : Spot} {task task' : Task}
  {report report' : String}

/-- Nothing of a nested node repeats a key if nothing of the one around it does. -/
theorem distinct_nested {model : Model} {next : String} {inner before after : Record}
    (hfields : (Json.obj fields).Distinct)
    (hsplit : catalog.nestedFields model fields = before ++ (next, .obj inner) :: after) :
    (Json.obj (before ++ (next, .obj inner) :: after)).Distinct ∧ (Json.obj inner).Distinct := by
  have hdistinct : (Json.obj (before ++ (next, .obj inner) :: after)).Distinct :=
    hsplit ▸ hfields.sublist List.filter_sublist
  exact ⟨hdistinct, ((Json.distinct_obj_iff _).1 hdistinct).2 (next, .obj inner)
    (List.mem_append_right _ (List.mem_cons_self ..))⟩

/-- Nor does anything of the node that is come to. -/
theorem distinct (h : catalog.Comes home name fields below spot)
    (hfields : (Json.obj fields).Distinct) : (Json.obj spot.fields).Distinct := by
  induction h with
  | here => exact hfields
  | inside _ _ hsplit _ _ ih => exact ih (distinct_nested hfields hsplit).2

/-- Only at the top nothing is around a node. -/
theorem of_top (h : catalog.Comes none name fields below spot) (htop : spot.home = none) :
    below = [] ∧ spot = ⟨none, name, fields, []⟩ := by
  have hinside : ∀ {home name fields below spot}, catalog.Comes home name fields below spot →
      home.isSome = true → spot.home.isSome = true := by
    intro home name fields below spot h hhome
    induction h with
    | here => exact hhome
    | inside _ _ _ _ _ ih => exact ih rfl
  cases h with
  | here => exact ⟨rfl, rfl⟩
  | inside _ _ _ _ hinner =>
    have hsome := hinside hinner rfl
    rw [htop] at hsome
    cases hsome

/-- A nested node has a model if the node that is come to in it fails for its own keys. -/
theorem opened {host : Model × Task} (h : catalog.Comes (some host) name fields below spot)
    (hfails : catalog.Fails spot.home spot.name spot.fields task report) :
    ∃ found, catalog.opens (some host) name (.obj fields) = .ok found := by
  cases h with
  | inside hopens => exact ⟨_, hopens⟩
  | here =>
    cases hfails with
    | unresolved hhome => cases hhome
    | misruled hopens => exact ⟨_, hopens⟩

/-- Fields of a nested node are put in its place, which the rules of the node around it do not
notice. -/
theorem refilled {model : Model} {next : String} {inner before after : Record}
    (hfields : (Json.obj fields).Distinct)
    (hsplit : catalog.nestedFields model fields = before ++ (next, .obj inner) :: after)
    (below : List String) (fields' : Record) :
    (Json.obj inner).Distinct ∧ catalog.Spares model fields (fields.refill (next :: below) fields') ∧
      catalog.nestedFields model (fields.refill (next :: below) fields') =
        before ++ (next, .obj (inner.refill below fields')) :: after := by
  obtain ⟨hdistinct, hinner⟩ := distinct_nested hfields hsplit
  have hmem : next ∈ Keyed.keys (catalog.nestedFields model fields) := by
    simp [hsplit, Keyed.keys]
  refine ⟨hinner, spares_adjust (Json.isNull_onRecords _) (not_hasRule_of_mem hmem), ?_⟩
  rw [Record.refill, nestedFields_adjust, hsplit]
  exact Record.refill_at hdistinct below fields'

/-- **With the keys of the failed node in another order, a node compiles to the same branches** but for
the failed one, and the reports are the same but for its own. -/
theorem changesTo (h : catalog.Comes home name fields below spot)
    (hfields : (Json.obj fields).Distinct)
    (hfails : catalog.Fails spot.home spot.name spot.fields task report)
    (hfails' : catalog.Fails spot.home spot.name fields' task' report')
    (hlink : task'.link = task.link) {branches : List Branch} {reports : List String}
    (hcompiles : catalog.Compiles home [(name, .obj fields)] branches reports) :
    catalog.ChangesTo (Branch.Swapped task task') home
      [(name, .obj (fields.refill below fields'))] spot.paths [report] [report'] branches
      reports := by
  induction h generalizing branches reports with
  | here =>
    obtain ⟨rfl, rfl⟩ := hfails.compiles.unique hcompiles
    exact ⟨_, [], [], rfl, hfails'.compiles, .here⟩
  | @inside _ _ next fields inner before after model _ ruled below _ hopens hrules hsplit hbefore
      hinner ih =>
    obtain ⟨hdistinct, hspared, hsplit'⟩ := refilled hfields hsplit below fields'
    exact .inside (Branch.congruent_swapped hlink) hopens hrules hspared hsplit hsplit' hbefore
      (hinner.opened hfails) (fun _ _ hnode => ih hdistinct hfails hfails' hnode) hcompiles

/-- **A nested node that finds no model is not compiled**, in whichever order its keys come: the node
around it fails, and all is as it was. -/
theorem compiles_unopened (h : catalog.Comes home name fields below spot)
    (hfields : (Json.obj fields).Distinct) {host : Model × Task} (hhome : spot.home = some host)
    {fault : Fault} (hfault : catalog.resolveNested host.1 spot.name (.obj spot.fields) = .error fault)
    (hperm : spot.fields ~ fields') {branches : List Branch} {reports : List String}
    (hcompiles : catalog.Compiles home [(name, .obj fields)] branches reports) :
    catalog.Compiles home [(name, .obj (fields.refill below fields'))] branches reports := by
  induction h generalizing branches reports with
  | here =>
    -- it would have been opened
    obtain rfl : _ = some host := hhome
    obtain ⟨found, hfound⟩ := hcompiles.opened _ (List.mem_singleton_self _)
    exact absurd hfound (opens_error hfault _ found)
  | @inside _ _ next fields inner before after model _ ruled below _ hopens hrules hsplit hbefore
      hinner ih =>
    obtain ⟨hdistinct, hspared, hsplit'⟩ := refilled hfields hsplit below fields'
    cases hinner with
    | here =>
      obtain rfl := Option.some.inj hhome
      refine .unopened hopens hrules hspared hsplit hsplit' hbefore hfault ?_ hcompiles
      exact (resolveNested_congr_value (directive_perm catalog hperm hdistinct) _).trans hfault
    | inside hopened =>
      exact (ChangesTo.same_iff _).1 (.inside Branch.congruent_same hopens hrules hspared hsplit
        hsplit' hbefore ⟨_, hopened⟩ (fun _ _ hnode => (ChangesTo.same_iff []).2
          (ih hdistinct hhome hfault hperm hnode)) hcompiles)

end Catalog.Comes

/-- **A request with the keys of a failed node in another order compiles to the same forest** but for
the task of this node, and the reports are the same but for its own. -/
theorem Catalog.Comes.forest_swapped {catalog : Catalog} {request : Record} {name : String}
    {fields fields' : Record} {below : List String} {spot : Spot} {task task' : Task}
    {report report' : String} (h : catalog.Comes none name fields below spot)
    (hrequest : (Json.obj request).Distinct) (hnode : (name, .obj fields) ∈ request)
    (hfails : catalog.Fails spot.home spot.name spot.fields task report)
    (hfails' : catalog.Fails spot.home spot.name fields' task' report')
    (hlink : task'.link = task.link) :
    Branch.Swapped task task' spot.paths (catalog.forest request)
        (catalog.forest (request.refill (name :: below) fields')) ∧
      ∃ before after, (catalog.plan request).errors = before ++ report :: after ∧
        (catalog.plan (request.refill (name :: below) fields')).errors =
          before ++ report' :: after := by
  obtain ⟨before, after, rfl⟩ := List.append_of_mem hnode
  have hfields : (Json.obj fields).Distinct := ((Json.distinct_obj_iff _).1 hrequest).2 _ hnode
  obtain ⟨branches, found, found', hreports, hcompiles, hswapped⟩ :=
    ChangesTo.among (Branch.congruent_swapped hlink)
      (catalog.compiles_forest (before ++ (name, .obj fields) :: after))
      fun _ _ => h.changesTo hfields hfails hfails' hlink
  rw [← Record.refill_at hrequest] at hcompiles
  obtain ⟨hforest, herrors⟩ := hcompiles.unique (catalog.compiles_forest _)
  rw [hforest]
  exact ⟨hswapped, found, found', by simpa using hreports, by simpa using herrors⟩

/-- **A request with the keys of a nested node without a model in another order has the same plan.** -/
theorem Catalog.Comes.plan_unopened {catalog : Catalog} {request : Record} {name : String}
    {fields fields' : Record} {below : List String} {spot : Spot}
    (h : catalog.Comes none name fields below spot) (hrequest : (Json.obj request).Distinct)
    (hnode : (name, .obj fields) ∈ request) {host : Model × Task} (hhome : spot.home = some host)
    {fault : Fault} (hfault : catalog.resolveNested host.1 spot.name (.obj spot.fields) = .error fault)
    (hperm : spot.fields ~ fields') :
    catalog.plan (request.refill (name :: below) fields') = catalog.plan request := by
  obtain ⟨before, after, rfl⟩ := List.append_of_mem hnode
  have hfields : (Json.obj fields).Distinct := ((Json.distinct_obj_iff _).1 hrequest).2 _ hnode
  have hsame := ChangesTo.among Branch.congruent_same
    (catalog.compiles_forest (before ++ (name, .obj fields) :: after)) fun _ _ hnode =>
      (ChangesTo.same_iff []).2 (h.compiles_unopened hfields hhome hfault hperm hnode)
  rw [← Record.refill_at hrequest] at hsame
  obtain ⟨hforest, herrors⟩ := ((ChangesTo.same_iff []).1 hsame).unique (catalog.compiles_forest _)
  have hext : ∀ {first second : Plan}, first.tasks = second.tasks → first.errors = second.errors →
      first = second := by
    rintro ⟨_, _⟩ ⟨_, _⟩ rfl rfl
    rfl
  refine hext ?_ herrors
  rw [plan_tasks, plan_tasks, hforest]

end NestedQuery
