import NestedQuery.Plan.Format
import NestedQuery.Proofs.Json.Leaves
import NestedQuery.Proofs.Schema.Formats
import NestedQuery.Proofs.SortedMap
import NestedQuery.Resolve.Registry
/-!
# The format of tasks

A task is read back from what is written of it (`Task.formats`), and so
an executor gets from the parser named `default` all that the task says.
The constraints of its filter are written under their columns, in the
order of the columns, and nothing in them can be taken for null or for
another kind of constraint (`Filter.readsBack`).

That tasks, models and settings all settle is `formats_settle`.
-/

namespace NestedQuery

open Json

/-! ## Parts of a task -/

theorem TaskKind.readsBack : ReadsBack (fun kind => .str (name kind)) ofJson? := by
  intro kind
  cases kind <;> rfl

theorem NodePath.formats : Formats ["keys", "parent_keys"] [] toJson ofJson? := by
  refine ReadsBack.formats (fun path => ?_) (fun _ => ⟨_, rfl, rfl⟩) (fun fields => ?_)
  · exact reads_parts <| reads_required readsBack_ofTexts rfl <|
      reads_required readsBack_ofTexts rfl rfl
  · exact completed_required fun _ => completed_required fun _ => rfl

theorem Batch.formats :
    Formats ["is_group", "is_batch_parent", "is_batch"] [] toJson ofJson? := by
  refine ReadsBack.formats (fun batch => ?_) (fun _ => ⟨_, rfl, rfl⟩) (fun fields => ?_)
  · exact reads_parts <| reads_required readsBack_bool rfl <|
      reads_required readsBack_bool rfl <| reads_required readsBack_bool rfl rfl
  · exact completed_required fun _ => completed_required fun _ => completed_required fun _ => rfl

theorem Link.formats :
    Formats ["local_key", "referenced_model", "referenced_key", "reversed"] [] toJson
      ofJson? := by
  refine ReadsBack.formats (fun link => ?_) (fun _ => ⟨_, rfl, rfl⟩) (fun fields => ?_)
  · exact reads_parts <| reads_required readsBack_str rfl <| reads_required readsBack_str rfl <|
      reads_required readsBack_str rfl <| reads_required readsBack_bool rfl rfl
  · exact completed_required fun _ => completed_required fun _ => completed_required fun _ =>
      completed_required fun _ => rfl

/-- The parts of a field, in order. -/
def Field.partNames : List String := ["source_field", "alias", "temporary"]

/-- What may be missing of a field. -/
def Field.defaults : Record := [("alias", .null)]

theorem Field.formats : Formats partNames defaults toJson ofJson? := by
  refine ReadsBack.formats (fun field => ?_) (fun _ => ⟨_, rfl, rfl⟩) (fun fields => ?_)
  · exact reads_parts <| reads_required readsBack_str rfl <|
      reads_optional readsBack_str nofun rfl <| reads_required readsBack_bool rfl rfl
  · exact completed_required fun _ => completed_optional fun _ => completed_required fun _ => rfl

theorem Direction.readsBack : ReadsBack (fun direction => .str (name direction)) ofJson? := by
  intro direction
  cases direction <;> rfl

theorem SortKey.formats : Formats ["field", "direction"] [] toJson ofJson? := by
  refine ReadsBack.formats (fun key => ?_) (fun _ => ⟨_, rfl, rfl⟩) (fun fields => ?_)
  · exact reads_parts <| reads_required readsBack_str rfl <|
      reads_required Direction.readsBack rfl rfl
  · exact completed_required fun _ => completed_required fun _ => rfl

theorem Page.formats : Formats ["enabled", "offset", "limit"] [] toJson ofJson? := by
  refine ReadsBack.formats (fun page => ?_) (fun _ => ⟨_, rfl, rfl⟩) (fun fields => ?_)
  · exact reads_parts <| reads_required readsBack_bool rfl <|
      reads_required readsBack_ofNat rfl <| reads_required readsBack_ofNat rfl rfl
  · exact completed_required fun _ => completed_required fun _ => completed_required fun _ => rfl

/-! ## Filters -/

/-- Entries are read in their order. -/
theorem Filter.readEntries?_map (entries : List (String × Constraint)) :
    readEntries? (entries.map fun (column, constraint) => (column, constraint.toJson)) =
      some entries := by
  induction entries with
  | nil => rfl
  | cons entry rest ih =>
    rw [List.map_cons, readEntries?, Constraint.ofJson?_toJson, ih]
    rfl

theorem Filter.readsBack : ReadsBack toJson ofJson? := by
  intro filter
  rw [toJson, ofJson?, record?, Option.bind_some, readEntries?_map, Option.map_some,
    SortedMap.ofList_entries]

/-! ## Tasks -/

/-- What may be missing of a task. -/
def Task.defaults : Record :=
  [("foreign_link", .null), ("fields", .null), ("sort", .null), ("pagination", .null),
    ("filter", .null)]

/-- **The format of tasks.** -/
theorem Task.formats : Formats partNames defaults toJson ofJson? := by
  refine ReadsBack.formats (fun task => ?_) (fun _ => ⟨_, rfl, rfl⟩) (fun fields => ?_)
  · exact reads_parts <| reads_required readsBack_str rfl <|
      reads_required TaskKind.readsBack rfl <| reads_required readsBack_str rfl <|
      reads_required readsBack_str rfl <| reads_required NodePath.formats.reads_back rfl <|
      reads_required Batch.formats.reads_back rfl <| reads_required readsBack_bool rfl <|
      reads_optional Link.formats.reads_back nofun rfl <|
      reads_optional Field.formats.reads_back.ofList nofun rfl <|
      reads_optional SortKey.formats.reads_back.ofList nofun rfl <|
      reads_optional Page.formats.reads_back nofun rfl <|
      reads_optional Filter.readsBack nofun rfl <| reads_required readsBack_ofTexts rfl <|
      reads_required readsBack_ofNat rfl <| reads_required readsBack_ofTexts rfl rfl
  · exact completed_required fun _ => completed_required fun _ => completed_required fun _ =>
      completed_required fun _ => completed_required fun _ => completed_required fun _ =>
      completed_required fun _ => completed_optional fun _ => completed_optional fun _ =>
      completed_optional fun _ => completed_optional fun _ => completed_optional fun _ =>
      completed_required fun _ => completed_required fun _ => completed_required fun _ => rfl

/-- What the default parser says of a task is read as the task. -/
theorem Registry.readsBack_defaultParser {σ : Type} (context : Context) (task : Task) :
    (fun arguments? : Option Json => arguments?.bind Task.ofJson?) <$>
      (defaultParser context task : Attempt σ (Option Json)) = pure (some task) := by
  have hread : (some task.toJson).bind Task.ofJson? = some task := Task.formats.reads_back task
  rw [defaultParser, map_pure, hread]

/-- **The formats of tasks, models and settings settle**, and so do those of their parts that may
miss something. The type `bool` has one other name, which is read and never written; a constraint
in a filter is what any of the alternatives reads of its value. The arguments that the default
parser makes of a task are read as the task. -/
theorem formats_settle (dialect : Json.Dialect) :
    Formats Task.partNames Task.defaults Task.toJson Task.ofJson? ∧
      Formats Field.partNames Field.defaults Field.toJson Field.ofJson? ∧
      Formats Model.partNames Model.defaults Model.toJson (Model.ofJson? dialect) ∧
      Formats Column.partNames Column.defaults Column.toJson (Column.ofJson? dialect) ∧
      Formats Settings.partNames Settings.defaults Settings.toJson (Settings.ofJson? dialect) ∧
      Formats DirectiveKeys.partNames DirectiveKeys.defaults DirectiveKeys.toJson
        (DirectiveKeys.ofJson? dialect) ∧
      Formats PageDefaults.partNames PageDefaults.defaults PageDefaults.toJson
        (PageDefaults.ofJson? dialect) ∧
      (∀ (name : String) (type : ColumnType), ColumnType.ofName? name = some type ↔
        name = type.name ∨ name = "boolean" ∧ type = .bool) ∧
      (∀ (value : Json) (constraint : Constraint), Constraint.ofJson? value = some constraint ↔
        ∃ read ∈ Constraint.alternatives, read value = some constraint) ∧
      ∀ (σ : Type) (context : Context) (task : Task),
        (fun arguments? : Option Json => arguments?.bind Task.ofJson?) <$>
          (Registry.defaultParser context task : Attempt σ (Option Json)) = pure (some task) :=
  ⟨Task.formats, Field.formats, Model.formats dialect, Column.formats dialect,
    Settings.formats dialect, DirectiveKeys.formats dialect, PageDefaults.formats dialect,
    fun _ _ => ColumnType.ofName?_eq_some_iff, fun _ _ => Constraint.ofJson?_eq_some_iff,
    fun _ context task => Registry.readsBack_defaultParser context task⟩

end NestedQuery
