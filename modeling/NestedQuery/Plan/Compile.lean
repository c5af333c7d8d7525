import NestedQuery.Plan.Rule
/-!
# Compiling a request

A request is a tree of nodes, and so is what it compiles to: a `Branch`
is a task with the branches of the nodes nested in it. The plan of a
request is the list of all tasks, each followed by those of its subtree.

A node is compiled in two rounds. The first applies the rules of its
keys, so that the path of the task is final before anything nested reads
it; the second compiles the nested nodes. A node that fails keeps its
task, as far as it was compiled, and loses everything nested in it;
errors found inside before the failure stay reported.
-/

namespace NestedQuery

/-! ## Branches -/

/-- A compiled node and the compiled nodes nested in it. -/
inductive Branch where
  | node (task : Task) (nested : List Branch)

namespace Branch

/-- The task at the root. -/
def root : Branch → Task
  | node task _ => task

mutual

/-- The tasks of a branch: the root, then those nested in it. -/
def tasks : Branch → List Task
  | node task nested => task :: tasksOf nested

/-- The tasks of several branches, one branch after the other. -/
def tasksOf : List Branch → List Task
  | [] => []
  | branch :: rest => branch.tasks ++ tasksOf rest

end

/-- A task with compiled branches below it, which it counts. -/
def grow (task : Task) (nested : List Branch) : Branch :=
  node { task with childCount := (tasksOf nested).length } nested

/-- A task that failed, and its report. Nothing is below it. -/
def fail (task : Task) (fault : Fault) : Branch × String :=
  let report := task.path.text ++ ": " ++ fault.message
  (node { task with childCount := 0, errors := task.errors ++ [report] } [], report)

end Branch

/-- A compiled request: its tasks in order, and the reports of all faults. -/
structure Plan where
  tasks : List Task
  errors : List String

namespace Catalog

/-! ## Names -/

/-- The name by which a node refers to its model: its model directive, or else its key. -/
def nodeName (catalog : Catalog) (key : String) (value : Json) : String :=
  match value.get? catalog.settings.keys.model with
  | some (.str name) => name
  | _ => key

/-- The model of a node. -/
def resolveNode (catalog : Catalog) (key : String) (value : Json) : Except Fault Resolved :=
  match value.get? catalog.settings.keys.model with
  | none | some (.str _) =>
    match catalog.resolve? (catalog.nodeName key value) with
    | some resolved => .ok resolved
    | none => .error (.unknownModel (catalog.nodeName key value))
  | some _ => .error (.directive catalog.settings.keys.model .notAString)

/-- The model of a nested node, and the link to the model it is nested in. -/
def resolveNested (catalog : Catalog) (parent : Model) (key : String) (value : Json) :
    Except Fault (Resolved × Link) :=
  match catalog.resolveNode key value with
  | .error _ => .error (.unknownKey key)
  | .ok child =>
    match child.model.link? parent with
    | some link => .ok (child, link)
    | none => .error (.noRelation child.model.name parent.name)

/-! ## Nodes -/

/-- Whether a key of a node of a model has a rule. -/
def hasRule (catalog : Catalog) (model : Model) (key : String) : Bool :=
  (model.rule? catalog.settings.keys key).isSome

/-- Applies the rules of a node's keys in order, up to the first fault. Null is a fault under any
key. -/
def applyRules (catalog : Catalog) (model : Model) : Task → Record → Task × Option Fault
  | task, [] => (task, none)
  | task, (key, value) :: rest =>
    if value.isNull then (task, some (.nullValue key))
    else match model.rule? catalog.settings.keys key with
      | none => applyRules catalog model task rest
      | some rule =>
        match rule.applyTo model catalog.settings key value task with
        | (task, some fault) => (task, some (.directive key fault))
        | (task, none) => applyRules catalog model task rest

/-- What compiling the nested nodes of a node gives: the node's task with the columns they join to,
their branches, their reports, and the fault that ended it. -/
structure Nested where
  task : Task
  branches : List Branch
  errors : List String
  fault : Option Fault

mutual

/-- Compiles a node whose model is known. -/
def compile (catalog : Catalog) (key : String) (resolved : Resolved) (parent : Option Task)
    (link : Option Link) : Json → Branch × List String
  | .bool true => (.grow (Task.start resolved key parent link).addJoinFields [], [])
  | .obj fields =>
    match applyRules catalog resolved.model (.start resolved key parent link) fields with
    | (task, some fault) =>
      let (branch, report) := Branch.fail task fault
      (branch, [report])
    | (task, none) =>
      let nested := compileNested catalog resolved.model task fields
      match nested.fault with
      | some fault =>
        -- the branches go, what they reported stays
        let (branch, report) := Branch.fail nested.task fault
        (branch, nested.errors ++ [report])
      | none => (.grow nested.task.addJoinFields nested.branches, nested.errors)
  | _ =>
    let (branch, report) := Branch.fail (.start resolved key parent link) (.invalidValue key)
    (branch, [report])

/-- Compiles the nodes among the fields of a node, which are those without a rule. -/
def compileNested (catalog : Catalog) (model : Model) (task : Task) :
    List (String × Json) → Nested
  | [] => ⟨task, [], [], none⟩
  | (key, value) :: rest =>
    if catalog.hasRule model key then compileNested catalog model task rest
    else match catalog.resolveNested model key value with
      | .error fault => ⟨task, [], [], some fault⟩
      | .ok (child, link) =>
        -- later nodes see the column, and so does the task once all are compiled
        let task := task.addJoinColumn link.referencedKey
        let (branch, errors) := compile catalog key child (some task) (some link) value
        let others := compileNested catalog model task rest
        { others with branches := branch :: others.branches, errors := errors ++ others.errors }

end

/-! ## Requests -/

/-- Compiles a node at the top of a request. -/
def compileTop (catalog : Catalog) (key : String) (value : Json) : Branch × List String :=
  match catalog.resolveNode key value with
  | .ok resolved => catalog.compile key resolved none none value
  | .error fault =>
    let report := key ++ ": " ++ fault.message
    (.node (.unresolved (catalog.nodeName key value) key report) [], [report])

/-- Compiles a request. -/
def plan (catalog : Catalog) (request : Record) : Plan :=
  let compiled := request.map fun (key, value) => catalog.compileTop key value
  { tasks := Branch.tasksOf (compiled.map Prod.fst)
    errors := compiled.flatMap Prod.snd }

end Catalog

end NestedQuery
