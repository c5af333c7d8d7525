import NestedQuery.Proofs.Json.Paths
import NestedQuery.Proofs.Plan.Sound
import NestedQuery.Proofs.Resolve.Stitching
/-!
# The names in a record

Three kinds of names meet in a record: the sources that its task lists,
the aliases that it gives them, and the keys of the nodes nested in it.
The fields that are shown differ in their names, the nested nodes differ
in their keys, and no nested node has the key of a column. So a value
and a nested node meet only if the value is shown under a name that is
no column (`Catalog.spaced_forest`), and any other value outlasts
whatever is written at the places of the nested nodes, as their places
are free of any other value.

The exception is there: the field directive knows of columns and of
other fields, but not of the keys next to it. An alias may be the key of
a nested node, which then takes its place (`Catalog.not_spaced_aliased`).
-/

namespace NestedQuery

/-- The name under which a field is shown. -/
def Field.output (field : Field) : String := field.alias?.getD field.source

theorem Field.output_mem_names (field : Field) : field.output ∈ field.names := by
  unfold output names
  cases field.alias? <;> simp

/-- Fields that differ in all their names differ in those they are shown under. -/
theorem Listing.nodup_outputs {fields : List Field} (h : Listing fields) :
    ((shown fields).map Field.output).Nodup := by
  rw [List.Nodup, List.pairwise_map]
  refine (List.nodup_flatMap.1 h.nodup).2.imp fun {field other} hdisjoint heq => ?_
  exact hdisjoint field.output_mem_names (heq ▸ other.output_mem_names)

/-- A row shows a value under a name only if a field is shown under it. -/
theorem Task.get?_view_none {task : Task} {fields : List Field} (hfields : task.fields = some fields)
    (row : Record) {key : String} (hkey : ∀ field ∈ shown fields, field.output ≠ key) :
    (task.view row).get? key = none := by
  rw [view, hfields]
  show Keyed.get? ((shown fields).filterMap (Field.shows row)) key = none
  rw [Keyed.get?_eq_none_iff]
  intro hmem
  obtain ⟨entry, hentry, rfl⟩ := List.mem_map.1 hmem
  obtain ⟨field, hfield, hshows⟩ := List.mem_filterMap.1 hentry
  refine hkey field hfield ?_
  unfold Field.shows at hshows
  unfold Field.output
  split at hshows
  · next name hname =>
    rw [hname, ← Option.some.inj hshows]
    rfl
  · next hname =>
    obtain ⟨value, -, heq⟩ := Option.map_eq_some_iff.1 hshows
    rw [hname, ← heq]
    rfl

/-! ## Writes at several paths -/

namespace Json

/-- Writes at paths, one after the other. -/
def writeAll (record : Record) (writes : List (List String × Json)) : Record :=
  writes.foldl (fun record write => writeInto record write.1 write.2) record

/-- What stands under a key that no path starts with outlasts the writes. -/
theorem get?_writeAll_ne {writes : List (List String × Json)} {key : String}
    (h : ∀ write ∈ writes, write.1.head? ≠ some key) (record : Record) :
    (writeAll record writes).get? key = record.get? key := by
  induction writes generalizing record with
  | nil => rfl
  | cons write rest ih =>
    obtain ⟨hfirst, hrest⟩ := List.forall_mem_cons.1 h
    exact (ih hrest _).trans (get?_writeInto_ne hfirst record write.2)

/-- A path is clear if nothing stands under its first key. -/
theorem clear_of_get?_none {path : List String} {record : Record}
    (h : ∀ key ∈ path.head?, record.get? key = none) : Clear path record := by
  match path with
  | [] => trivial
  | [_] => trivial
  | key :: next :: rest =>
    unfold Clear
    rw [h key rfl]
    trivial

end Json

/-! ## Nested nodes -/

namespace Branch

/-- A task stands somewhere in a forest, with the branches that are nested in it. -/
inductive Holds : List Branch → Task → List Branch → Prop where
  | here {task : Task} {nested rest : List Branch} : Holds (.node task nested :: rest) task nested
  | inside {root task : Task} {inner nested rest : List Branch} :
      Holds inner task nested → Holds (.node root inner :: rest) task nested
  | behind {first : Branch} {task : Task} {nested rest : List Branch} :
      Holds rest task nested → Holds (first :: rest) task nested

/-- Every task of a forest stands somewhere in it. -/
theorem mem_tasksOf_iff_holds {branches : List Branch} {task : Task} :
    task ∈ tasksOf branches ↔ ∃ nested, Holds branches task nested := by
  induction branches using forest_induction with
  | nil =>
    rw [tasksOf_nil]
    exact ⟨fun hmem => absurd hmem List.not_mem_nil, fun ⟨_, hholds⟩ => nomatch hholds⟩
  | node root inner rest ihinner ihrest =>
    rw [tasksOf_node, List.mem_cons, List.mem_append, ihinner, ihrest]
    constructor
    · rintro (rfl | ⟨nested, hholds⟩ | ⟨nested, hholds⟩)
      · exact ⟨inner, .here⟩
      · exact ⟨nested, .inside hholds⟩
      · exact ⟨nested, .behind hholds⟩
    · rintro ⟨nested, hholds⟩
      cases hholds with
      | here => exact .inl rfl
      | inside hholds => exact .inr (.inl ⟨nested, hholds⟩)
      | behind hholds => exact .inr (.inr ⟨nested, hholds⟩)

/-- A branch without nested ones holds its root alone. -/
theorem holds_leaf {root task : Task} {nested rest : List Branch}
    (h : Holds (.node root [] :: rest) task nested) :
    (task = root ∧ nested = []) ∨ Holds rest task nested := by
  cases h with
  | here => exact .inl ⟨rfl, rfl⟩
  | inside hholds => cases hholds
  | behind hholds => exact .inr hholds

/-- Siblings differ in their keys wherever they stand. -/
theorem Apart.of_holds {branches nested : List Branch} {task : Task} (h : Apart branches)
    (hholds : Holds branches task nested) : Apart nested := by
  induction hholds with
  | here =>
    cases h with
    | node _ hnested _ => exact hnested
  | inside _ ih =>
    cases h with
    | node _ hnested _ => exact ih hnested
  | behind _ ih =>
    cases h with
    | node _ _ hrest => exact ih hrest

end Branch

namespace Catalog

variable {catalog : Catalog}

/-- What a node lists is fit to be shown, and nested in it are nodes without the key of a column. -/
structure Named (catalog : Catalog) (task : Task) (nested : List Branch) : Prop where
  /-- The listing is one that the compiler makes. -/
  sound : ∀ fields, task.fields = some fields → ∃ model ∈ catalog.models,
    model.name = task.model ∧ Field.Sound model fields
  /-- No nested node has the key of a column. -/
  columns : ∀ branch ∈ nested, ∀ key ∈ branch.segment?, ∃ model ∈ catalog.models,
    model.name = task.model ∧ model.hasColumn key = false

/-- A node that is not listed and has nothing nested in it is named well. -/
theorem Named.blank {task : Task} (h : task.fields = none) : catalog.Named task [] :=
  ⟨by simp [h], by simp⟩

/-- A node that failed lists at most what its rules made of it. -/
theorem Named.failed {parent : Option (Model × Task)} {key : String} {value : Json} {model : Model}
    {start ruled task : Task} {fields : Record} {fault : Option Fault}
    (hopens : catalog.opens parent key value = .ok (model, start))
    (hrules : catalog.applyRules model start fields = (ruled, fault))
    (hmodel : task.model = ruled.model) (hfields : task.fields = ruled.fields) :
    catalog.Named task [] := by
  have hextends : ruled.Extends start := by
    simpa [hrules] using catalog.applyRules_extends model start fields
  obtain ⟨hmem, resolved, link, rfl, rfl, -⟩ := opens_ok hopens
  have hruled : Task.Ruled resolved.model _ (catalog.applyRules resolved.model _ fields).1 :=
    ruled_applyRules (Task.start_blank resolved key (parent.map Prod.snd) link).1 fields
  rw [hrules] at hruled
  refine ⟨fun listed hlisted => ⟨_, hmem, ?_, hruled.fields listed (hfields ▸ hlisted)⟩, by simp⟩
  exact (hmodel.trans (hextends.model.trans (Task.start_model ..))).symm

/-- A node that went well lists what its rules made of it and the columns to join on, and the nodes
nested in it stand under keys without rule. -/
theorem Named.grown (haccepted : catalog.Accepted) {parent : Option (Model × Task)} {key : String}
    {value : Json} {model : Model} {start ruled : Task} {fields : Record} {nested : List Branch}
    {found : List String} (hopens : catalog.opens parent key value = .ok (model, start))
    (hparent : ∀ home p, parent = some (home, p) → home ∈ catalog.models)
    (hrules : catalog.applyRules model start fields = (ruled, none))
    (hnested : catalog.Compiles (some (model, Branch.widen ruled nested))
      (catalog.nestedFields model fields) nested found) (count : Nat) :
    catalog.Named { (Branch.widen ruled nested).addJoinFields with childCount := count } nested := by
  have hextends : ruled.Extends start := by
    simpa [hrules] using catalog.applyRules_extends model start fields
  have hmodel : model.name = (Branch.widen ruled nested).model := by
    obtain ⟨-, resolved, link, rfl, rfl, -⟩ := opens_ok hopens
    exact (((Branch.widen_extends ruled nested).trans hextends).model.trans (Task.start_model ..)).symm
  have hmem := (opens_ok hopens).1
  refine ⟨fun listed hlisted => ⟨model, hmem, hmodel,
    (fields_grown haccepted hopens hparent hrules hnested hlisted).1⟩, fun branch hbranch key hkey =>
    ⟨model, hmem, hmodel, ?_⟩⟩
  have hrule : catalog.hasRule model key = false :=
    not_hasRule_of_mem (hnested.mem_keys hbranch (Option.mem_def.1 hkey))
  exact hasColumn_of_not_hasRule hrule

/-- **Every node is named well.** -/
theorem Compiles.named (haccepted : catalog.Accepted) {parent : Option (Model × Task)}
    {nodes : Record} {branches : List Branch} {reports : List String}
    (h : catalog.Compiles parent nodes branches reports)
    (hparent : ∀ home p, parent = some (home, p) → home ∈ catalog.models) {task : Task}
    {nested : List Branch} (hholds : Branch.Holds branches task nested) :
    catalog.Named task nested := by
  induction h generalizing task nested with
  | nil => cases hholds
  | unresolved _ _ ih =>
    rcases Branch.holds_leaf hholds with ⟨rfl, rfl⟩ | hholds
    · exact .blank rfl
    · exact ih hparent hholds
  | @refused _ _ _ model start _ _ _ hopens _ _ ih =>
    rcases Branch.holds_leaf hholds with ⟨rfl, rfl⟩ | hholds
    · have hrules : catalog.applyRules model start [] = (start, none) := rfl
      exact .failed hopens hrules rfl rfl
    · exact ih hparent hholds
  | misruled hopens _ hrules _ ih =>
    rcases Branch.holds_leaf hholds with ⟨rfl, rfl⟩ | hholds
    · exact .failed hopens hrules rfl rfl
    · exact ih hparent hholds
  | @broken _ _ _ _ _ _ _ ruled _ _ _ _ _ lost _ _ _ hopens _ hrules _ _ _ _ _ ih =>
    rcases Branch.holds_leaf hholds with ⟨rfl, rfl⟩ | hholds
    · exact .failed hopens hrules (Branch.widen_extends ruled lost).model
        (Branch.widen_fields ruled lost).1
    · exact ih hparent hholds
  | grown hopens _ hrules hnested _ ihnested ih =>
    cases hholds with
    | here => exact .grown haccepted hopens hparent hrules hnested _
    | inside hholds =>
      refine ihnested (fun home p hp => ?_) hholds
      obtain ⟨rfl, rfl⟩ := Prod.mk.inj (Option.some.inj hp)
      exact (opens_ok hopens).1
    | behind hholds => exact ih hparent hholds

/-- The names that meet in a record of a task with a listing do not collide, but for names that are
no columns. -/
structure Spaced (catalog : Catalog) (task : Task) (nested : List Branch) (fields : List Field) :
    Prop where
  /-- The fields that are shown differ in their names. -/
  outputs : ((shown fields).map Field.output).Nodup
  /-- The nested nodes differ in their keys. -/
  keys : (nested.map Branch.segment?).Nodup
  /-- A field is shown under the key of a nested node only if this is no column of the model. -/
  apart : ∀ field ∈ shown fields, ∀ branch ∈ nested, branch.segment? = some field.output →
    ∃ model ∈ catalog.models, model.name = task.model ∧ model.hasColumn field.output = false
  /-- A value that is shown under the key of no nested node outlasts what is written for these. -/
  kept : ∀ (row : Record) (writes : List (List String × Json)),
    (∀ write ∈ writes, ∃ branch ∈ nested, write.1 = branch.root.path.keys) →
    ∀ field ∈ shown fields, (∀ branch ∈ nested, branch.segment? ≠ some field.output) →
      (Json.writeAll (task.finish (Record.project row task.fields)) writes).get? field.output =
        (task.view row).get? field.output
  /-- Nothing blocks what is written for a nested node under whose key no field is shown, whatever
  was written for the others. -/
  clear : ∀ (row : Record) (writes : List (List String × Json)) (branch : Branch), branch ∈ nested →
    (∀ write ∈ writes, ∃ other ∈ nested, other.segment? ≠ branch.segment? ∧
      write.1 = other.root.path.keys) →
    (∀ field ∈ shown fields, branch.segment? ≠ some field.output) →
      Json.Clear branch.root.path.keys
        (Json.writeAll (task.finish (Record.project row task.fields)) writes)

/-- A node that is named well, with siblings that differ in their keys, has its names apart. -/
theorem Named.spaced {task : Task} {nested : List Branch}
    (h : catalog.Named task nested) (hapart : Branch.Apart nested) {fields : List Field}
    (hfields : task.fields = some fields) : catalog.Spaced task nested fields := by
  obtain ⟨model, hmodel, hname, hsound⟩ := h.sound fields hfields
  have hlisting := hsound.listing
  have hfinish : ∀ (row : Record) (key : String),
      (task.finish (Record.project row task.fields)).get? key = (task.view row).get? key :=
    Task.get?_finish fun listed hlisted => by
      obtain rfl := Option.some.inj (hfields.symm.trans hlisted)
      exact hlisting
  refine ⟨hlisting.nodup_outputs, hapart.nodup, fun field _ branch hbranch hkey => ?_,
    fun row writes hwrites field _ hfree => ?_, fun row writes branch hbranch hwrites hfree => ?_⟩
  · exact h.columns branch hbranch field.output hkey
  · rw [Json.get?_writeAll_ne, hfinish]
    intro write hwrite
    obtain ⟨branch, hbranch, hpath⟩ := hwrites write hwrite
    exact hpath ▸ hfree branch hbranch
  · refine Json.clear_of_get?_none fun key hkey => ?_
    rw [Json.get?_writeAll_ne, hfinish]
    · exact Task.get?_view_none hfields row fun field hfield heq =>
        hfree field hfield (heq ▸ hkey)
    · intro write hwrite
      obtain ⟨other, -, hother, hpath⟩ := hwrites write hwrite
      exact hpath ▸ hkey ▸ hother

/-- **No two names collide in a record, but for those that are no columns.** The tasks of a plan
stand in its forest; wherever one with a listing stands there, the fields that it shows differ in
their names and the nodes nested in it in their keys, and a field that is shown under the key of a
nested node is shown under an alias or lists what is no column. -/
theorem spaced_plan (haccepted : catalog.Accepted) {request : Record}
    (hrequest : (Json.obj request).Distinct) :
    (∀ task, task ∈ (catalog.plan request).tasks ↔
      ∃ nested, Branch.Holds (catalog.forest request) task nested) ∧
    ∀ task nested fields, Branch.Holds (catalog.forest request) task nested →
      task.fields = some fields → catalog.Spaced task nested fields := by
  refine ⟨fun task => ?_, fun task nested fields hholds hfields => ?_⟩
  · rw [plan_tasks, Branch.mem_tasksOf_iff_holds]
  · have hnamed := (compiles_forest catalog request).named haccepted (by simp) hholds
    exact hnamed.spaced ((catalog.apart_forest hrequest).of_holds hholds) hfields

end Catalog

namespace Library

/-- A list of authors with their books, and with the id under a name that is no column. -/
def renumbered (name : String) : Record :=
  [("authors", .obj [("@field", .str ("id:" ++ name)), ("books", .bool true)])]

theorem renumbered_distinct (name : String) : (Json.obj (renumbered name)).Distinct := by
  simp [renumbered, Keyed.keys, Json.Distinct, Json.DistinctFields]

end Library

/-- The names that a branch shows at its root, if there is a listing, and the keys nested in it. -/
def Branch.names : Branch → Option (List String) × List (Option String)
  | .node task nested =>
    (task.fields.map fun fields => (shown fields).map Field.output, nested.map Branch.segment?)

/-- A branch that shows names has a task with a listing. -/
theorem Branch.exists_of_names {branches : List Branch} {outputs : List String}
    {keys : List (Option String)} (h : branches.map Branch.names = [(some outputs, keys)]) :
    ∃ task nested fields, Branch.Holds branches task nested ∧ task.fields = some fields ∧
      (shown fields).map Field.output = outputs ∧ nested.map Branch.segment? = keys := by
  obtain ⟨⟨task, nested⟩, rfl, hnames⟩ := List.map_eq_singleton_iff.1 h
  obtain ⟨houtputs, hkeys⟩ := Prod.mk.inj hnames
  obtain ⟨fields, hfields, hshown⟩ := Option.map_eq_some_iff.1 houtputs
  exact ⟨task, nested, fields, .here, hfields, hshown, hkeys⟩

theorem Catalog.spaced_plan_library : Library.catalog.Accepted ∧
    (Json.obj (Library.renumbered "number")).Distinct ∧
    ∃ task nested fields, (shown fields).map Field.output = ["number"] ∧
      nested.map Branch.segment? = [some "books"] ∧
      Library.catalog.Spaced task nested fields := by
  have hnames : (Library.catalog.forest (Library.renumbered "number")).map Branch.names =
      [(some ["number"], [some "books"])] := by decide +kernel
  obtain ⟨task, nested, fields, hholds, hfields, hshown, hkeys⟩ := Branch.exists_of_names hnames
  exact ⟨Library.accepted, Library.renumbered_distinct "number", task, nested, fields, hshown, hkeys,
    (spaced_plan Library.accepted (Library.renumbered_distinct "number")).2 _ _ _ hholds hfields⟩

/-- It takes the exception: an alias may be the key of a nested node, of which nothing is reported,
and the two names collide. -/
theorem Catalog.not_spaced_aliased :
    ¬ ∀ (catalog : Catalog) (request : Record), catalog.Accepted → (Json.obj request).Distinct →
      (catalog.plan request).errors = [] → ∀ task nested fields,
        Branch.Holds (catalog.forest request) task nested → task.fields = some fields →
          (((shown fields).map Field.output).map some ++ nested.map Branch.segment?).Nodup := by
  intro hall
  have hnames : (Library.catalog.forest (Library.renumbered "books")).map Branch.names =
      [(some ["books"], [some "books"])] := by decide +kernel
  obtain ⟨task, nested, fields, hholds, hfields, hshown, hkeys⟩ := Branch.exists_of_names hnames
  have hnodup := hall Library.catalog (Library.renumbered "books") Library.accepted
    (Library.renumbered_distinct "books") (by decide +kernel) task nested fields hholds hfields
  rw [hshown, hkeys] at hnodup
  exact absurd hnodup (by decide)

end NestedQuery
