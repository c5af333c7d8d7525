import NestedQuery.Plan.Compile
import NestedQuery.Resolve.Registry
import NestedQuery.Resolve.Shape
import NestedQuery.Json.Path
/-!
# Running a plan

The tasks of a plan are worked on in order. What a task fetched is
indexed as it came, then brought into its final shape and kept in the
slot of the task. A task without outcome takes its subtree with it: the
walk goes on behind the tasks it counts as its own.

Nothing is put into a parent's records during the walk. Each nested task
notes writes instead, and when the walk is over they are carried out in
reverse. Descendants come later in the list than their ancestors, so a
record is complete by the time it is copied into one above it.

A write is addressed to the slot of the parent, which is found by the
dotted text of its path; the task reached last under that text counts.
-/

namespace NestedQuery

/-! ## Writes into parent records -/

/-- What is to be written into a parent's record. -/
inductive Graft where
  | nothing
  /-- All that was fetched for a task. -/
  | whole (slot : Nat)
  /-- One record of a task. -/
  | one (slot position : Nat)
  /-- Several records of a task. -/
  | many (slot : Nat) (positions : List Nat)
deriving DecidableEq

/-- A write into the record at a position of a slot. -/
structure PendingWrite where
  slot : Nat
  position : Nat
  keys : List String
  graft : Graft

/-- The outcomes of all tasks, by place in the list. -/
abbrev Slots := List Outcome

namespace Slots

/-- The outcome in a slot; absent outside the list. -/
def read (slots : Slots) (slot : Nat) : Outcome := slots[slot]?.getD .absent

/-- The value of a graft. -/
def graft (slots : Slots) : Graft → Json
  | .nothing => .null
  | .whole slot => (slots.read slot).toJson
  | .one slot position =>
    match (slots.read slot).record? position with
    | some record => .obj record
    | none => .null
  | .many slot positions => .arr ((positions.filterMap (slots.read slot).record?).map .obj)

/-- Carries out a write. -/
def perform (slots : Slots) (write : PendingWrite) : Slots :=
  let value := slots.graft write.graft
  slots.modify write.slot fun outcome =>
    outcome.modifyAt (fun record => Json.writeInto record write.keys value) write.position

end Slots

/-! ## The walk -/

/-- How far a walk has come. -/
structure Progress where
  cache : JoinCache := {}
  /-- The place of the last task reached under each path text. -/
  places : Keyed Nat := []
  slots : Slots
  /-- The writes noted so far, last first. -/
  writes : List PendingWrite := []
  errors : List String

namespace Task

/-- The constraint by which a task joins to the keys indexed for its parent: any of them, or the
one key of a single record, or nothing at all. -/
def joinConstraint (task : Task) (link : Link) (cache : JoinCache) : Except Fault Constraint :=
  match cache.index? task.path.parentText link.referencedKey with
  | none => .error (.missingJoinKey task.path.parentText link.referencedKey)
  | some index =>
    if task.batch.underBatch then .ok (.anyOfKeys index.keys)
    else .ok ((index.single?.bind Constraint.ofKey?).getD (.anyOf []))

/-- A task with its join constraint in the filter. -/
def joined (task : Task) (cache : JoinCache) : Except Fault Task :=
  match task.link with
  | none => .ok task
  | some link => do return task.constrain link.localKey (← task.joinConstraint link cache)

/-- The columns to index: those to join to, and the temporary fields among the rest. -/
def indexedColumns (task : Task) : List String :=
  task.temporarySources.foldl
    (fun columns source => if source ∈ columns then columns else columns ++ [source])
    task.joinColumns

/-- The indices of what was fetched for a task. -/
def indices (task : Task) (outcome : Outcome) : Keyed JoinIndex :=
  task.indexedColumns.map fun column => (column, JoinIndex.ofOutcome outcome column)

/-- The parent records that a nested task writes into, each with its key: under a batch the indexed
ones, otherwise the one record there may be. -/
def targets (task : Task) (link : Link) (cache : JoinCache) : List (Json × Nat) :=
  if task.batch.underBatch then
    match cache.index? task.path.parentText link.referencedKey with
    | some index => index.entries
    | none => []
  else [(.null, 0)]

/-- The writes of a nested task that has no outcome. -/
def emptyWrites (task : Task) (link : Link) (parent : Nat) (cache : JoinCache) :
    List PendingWrite :=
  (task.targets link cache).map fun (_, position) =>
    ⟨parent, position, task.path.keys, .nothing⟩

/-- What a nested task writes into the parent record that has a key, under a batch. -/
def graftFor (task : Task) (link : Link) (place : Nat) (cache : JoinCache) (key : Json) : Graft :=
  let found :=
    match cache.index? task.path.text link.localKey with
    | some index => index.positionsOf key
    | none => []
  if task.batch.isGroup then .many place found
  else match found with
    | first :: _ => .one place first
    | [] => .nothing

/-- The writes of a nested task at a place that has an outcome. -/
def graftWrites (task : Task) (link : Link) (parent place : Nat) (cache : JoinCache) :
    List PendingWrite :=
  if task.batch.underBatch then
    (task.targets link cache).map fun (key, position) =>
      ⟨parent, position, task.path.keys, task.graftFor link place cache key⟩
  else [⟨parent, 0, task.path.keys, .whole place⟩]

end Task

namespace Progress

/-- Before the first task of a plan: nothing is there but the reports of the plan. -/
def start (plan : Plan) : Progress :=
  { slots := List.replicate plan.tasks.length .absent, errors := plan.errors }

/-- Enters a task at a place: from here on its path text means this place. -/
def enter (progress : Progress) (task : Task) (place : Nat) : Progress :=
  { progress with places := progress.places.put task.path.text place }

/-- The link of a nested task and the place of its parent, where both are known. -/
def parent? (progress : Progress) (task : Task) : Option (Link × Nat) := do
  let link ← task.link
  let place ← progress.places.get? task.path.parentText
  return (link, place)

/-- Leaves a task without outcome, reporting a fault if there was one. -/
def miss (progress : Progress) (task : Task) (fault : Option Fault) : Progress :=
  { progress with
    errors :=
      match fault with
      | some fault => progress.errors ++ [task.path.text ++ ": " ++ fault.message]
      | none => progress.errors
    writes :=
      match progress.parent? task with
      | some (link, parent) =>
        (task.emptyWrites link parent progress.cache).reverse ++ progress.writes
      | none => progress.writes }

/-- Leaves a task at a place with an outcome: indexes it, shapes it, and notes its writes. -/
def keep (progress : Progress) (task : Task) (place : Nat) (outcome : Outcome) : Progress :=
  -- indexed as it came, while the temporary fields are still there
  let cache := progress.cache.insert task.path.text (task.indices outcome)
  { progress with
    cache
    slots := progress.slots.set place (outcome.mapRecords task.finish)
    writes :=
      match progress.parent? task with
      | some (link, parent) =>
        (task.graftWrites link parent place cache).reverse ++ progress.writes
      | none => progress.writes }

/-- The outcomes once all writes are carried out, the last noted first. -/
def settled (progress : Progress) : Slots := progress.writes.foldl Slots.perform progress.slots

end Progress

/-- The result of a request: the data tree, and the reports of all faults. -/
structure Resolution where
  data : Json
  errors : List String

/-- A catalog, and what serves its models. -/
structure Engine (σ : Type) where
  catalog : Catalog
  registry : Registry σ

namespace Engine

variable {σ : Type}

/-- Works on one task: parses it, joins it, executes it. None if there is nothing to fetch. -/
def fetch (engine : Engine σ) (context : Context) (task : Task) : Attempt σ (Option Outcome) := do
  match engine.registry.parsers.get? task.parser with
  | none => throw (.missingParser task.parser)
  | some parser =>
    match ← parser context task with
    | none => return none
    | some arguments =>
      let joined ← liftM (task.joined context.cache)
      match engine.registry.executors.get? task.executor with
      | none => throw (.missingExecutor task.executor)
      | some executor => return some (← executor context joined arguments)

/-- What became of a task: an outcome that is not absent, or none and perhaps a fault. -/
def attempt (engine : Engine σ) (context : Context) (task : Task) :
    StateM σ (Except (Option Fault) Outcome) := do
  if task.isFailed then return .error none
  else match ← (engine.fetch context task).run with
    | .error fault => return .error (some fault)
    | .ok none => return .error none
    | .ok (some outcome) => return if outcome.isAbsent then .error none else .ok outcome

/-- Walks the tasks from a place on. -/
def walk (engine : Engine σ) (operation : Operation) (input : Record) :
    Nat → List Task → Progress → StateM σ Progress
  | _, [], progress => return progress
  | place, task :: rest, progress => do
    let progress := progress.enter task place
    match ← engine.attempt ⟨operation, engine.catalog, input, progress.cache⟩ task with
    | .ok outcome =>
      engine.walk operation input (place + 1) rest (progress.keep task place outcome)
    | .error fault =>
      -- what is nested in the task is passed over
      engine.walk operation input (place + 1 + task.childCount) (rest.drop task.childCount)
        (progress.miss task fault)
termination_by _ tasks _ => tasks.length
decreasing_by
  · exact Nat.lt_succ_self _
  · rw [List.length_drop]
    exact Nat.lt_succ_of_le (Nat.sub_le _ _)

/-! ## The data tree -/

/-- Puts the outcome of each task at the top at the task's path. -/
def collect (tasks : List Task) (slots : Slots) : Json :=
  (tasks.zip slots).foldl
    (fun data (task, outcome) =>
      if task.isNested then data else data.writeAt task.path.keys outcome.toJson)
    (.obj [])

/-- Resolves a plan. -/
def resolve (engine : Engine σ) (operation : Operation) (input : Record) (plan : Plan) :
    StateM σ Resolution := do
  let final ← engine.walk operation input 0 plan.tasks (.start plan)
  return { data := collect plan.tasks final.settled, errors := final.errors }

/-- Compiles and resolves a request. -/
def run (engine : Engine σ) (operation : Operation) (input : Record) : StateM σ Resolution :=
  engine.resolve operation input (engine.catalog.plan input)

end Engine

end NestedQuery
