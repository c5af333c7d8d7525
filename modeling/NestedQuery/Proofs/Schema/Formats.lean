import Mathlib.Tactic.SplitIfs
import NestedQuery.Proofs.Json.Formats
import NestedQuery.Schema.Format
/-!
# The formats of models and settings

Models and settings are read back from what is written of them, in
either dialect, and what is missing of them is read as its default
(`Model.formats`, `Settings.formats`). A default stands among the parts
as it would be written there.
-/

namespace NestedQuery

open Json

variable (dialect : Dialect)

/-! ## Models -/

/-- A column type is read under its own name, and `bool` under one other. -/
theorem ColumnType.ofName?_eq_some_iff {name : String} {type : ColumnType} :
    ofName? name = some type ↔ name = type.name ∨ name = "boolean" ∧ type = bool := by
  unfold ofName?
  constructor
  · intro h
    split_ifs at h with hbool hstring hnumber hobject <;> obtain rfl := Option.some.inj h
    · exact hbool.imp_right fun hother => ⟨hother, rfl⟩
    · exact Or.inl hstring
    · exact Or.inl hnumber
    · exact Or.inl hobject
  · rintro (rfl | ⟨rfl, rfl⟩)
    · cases type <;> rfl
    · rfl

theorem ColumnType.readsBack : ReadsBack toJson (ofJson? dialect) :=
  fun _ => ofName?_eq_some_iff.2 (Or.inl rfl)

/-- The parts of a column, in order. -/
def Column.partNames : List String := ["key", "type", "desc", "is_primary", "is_foreign"]

/-- What may be missing of a column. -/
def Column.defaults : Record :=
  [("desc", .str ""), ("is_primary", .bool false), ("is_foreign", .bool false)]

theorem Column.formats : Formats partNames defaults toJson (ofJson? dialect) := by
  refine ReadsBack.formats (fun column => ?_) (fun _ => ⟨_, rfl, rfl⟩) (fun fields => ?_)
  · exact reads_parts <| reads_required readsBack_str rfl <|
      reads_required (ColumnType.readsBack dialect) rfl <| reads_defaulted readsBack_str rfl <|
      reads_defaulted readsBack_bool rfl <| reads_defaulted readsBack_bool rfl rfl
  · exact completed_required fun _ => completed_required fun _ => completed_defaulted fun _ =>
      completed_defaulted fun _ => completed_defaulted fun _ => rfl

theorem Relation.formats :
    Formats ["local_key", "referenced_model", "referenced_key"] [] toJson (ofJson? dialect) := by
  refine ReadsBack.formats (fun relation => ?_) (fun _ => ⟨_, rfl, rfl⟩) (fun fields => ?_)
  · exact reads_parts <| reads_required readsBack_str rfl <|
      reads_required readsBack_str rfl <| reads_required readsBack_str rfl rfl
  · exact completed_required fun _ => completed_required fun _ => completed_required fun _ => rfl

/-- The parts of a model, in order. -/
def Model.partNames : List String :=
  ["name", "group_name", "desc", "columns", "foreigns", "parser", "executor", "extra"]

/-- What may be missing of a model. -/
def Model.defaults : Record :=
  [("desc", .str ""), ("foreigns", .arr []), ("parser", .str "default"),
    ("executor", .str "default"), ("extra", .obj [])]

/-- **The format of models.** -/
theorem Model.formats : Formats partNames defaults toJson (ofJson? dialect) := by
  have hcolumns := (Column.formats dialect).reads_back.ofList
  have hrelations := (Relation.formats dialect).reads_back.ofList
  refine ReadsBack.formats (fun model => ?_) (fun _ => ⟨_, rfl, rfl⟩) (fun fields => ?_)
  · exact reads_parts <| reads_required readsBack_str rfl <| reads_required readsBack_str rfl <|
      reads_defaulted readsBack_str rfl <| reads_required hcolumns rfl <|
      reads_defaulted hrelations rfl <| reads_defaulted readsBack_str rfl <|
      reads_defaulted readsBack_str rfl <| reads_defaulted readsBack_obj rfl rfl
  · exact completed_required fun _ => completed_required fun _ => completed_defaulted fun _ =>
      completed_required fun _ => completed_defaulted fun _ => completed_defaulted fun _ =>
      completed_defaulted fun _ => completed_defaulted fun _ => rfl

/-! ## Settings -/

/-- The parts of directive keys, in order. -/
def DirectiveKeys.partNames : List String := ["model", "field", "sort", "pagination"]

/-- What may be missing of the directive keys. -/
def DirectiveKeys.defaults : Record :=
  [("model", .str "@model"), ("field", .str "@field"), ("sort", .str "@sort"),
    ("pagination", .str "@pagination")]

theorem DirectiveKeys.formats : Formats partNames defaults toJson (ofJson? dialect) := by
  refine ReadsBack.formats (fun keys => ?_) (fun _ => ⟨_, rfl, rfl⟩) (fun fields => ?_)
  · exact reads_parts <| reads_defaulted readsBack_str rfl <| reads_defaulted readsBack_str rfl <|
      reads_defaulted readsBack_str rfl <| reads_defaulted readsBack_str rfl rfl
  · exact completed_defaulted fun _ => completed_defaulted fun _ => completed_defaulted fun _ =>
      completed_defaulted fun _ => rfl

/-- The parts of pagination defaults, in order. -/
def PageDefaults.partNames : List String := ["key", "offset", "limit"]

/-- What may be missing of the pagination defaults. -/
def PageDefaults.defaults : Record :=
  [("key", .str "pagination"), ("offset", .ofNat 0), ("limit", .ofNat 10)]

theorem PageDefaults.formats : Formats partNames defaults toJson (ofJson? dialect) := by
  refine ReadsBack.formats (fun page => ?_) (fun _ => ⟨_, rfl, rfl⟩) (fun fields => ?_)
  · exact reads_parts <| reads_defaulted readsBack_str rfl <|
      reads_defaulted readsBack_ofNat rfl <| reads_defaulted readsBack_ofNat rfl rfl
  · exact completed_defaulted fun _ => completed_defaulted fun _ => completed_defaulted fun _ => rfl

/-- The parts of settings, in order. -/
def Settings.partNames : List String := ["keys", "pagination"]

/-- What may be missing of settings. -/
def Settings.defaults : Record := [("keys", .obj []), ("pagination", .obj [])]

/-- **The format of settings.** -/
theorem Settings.formats : Formats partNames defaults toJson (ofJson? dialect) := by
  refine ReadsBack.formats (fun settings => ?_) (fun _ => ⟨_, rfl, rfl⟩) (fun fields => ?_)
  · exact reads_parts <| reads_defaulted (DirectiveKeys.formats dialect).reads_back rfl <|
      reads_defaulted (PageDefaults.formats dialect).reads_back rfl rfl
  · exact completed_defaulted fun _ => completed_defaulted fun _ => rfl

/-- Settings that say one thing, and one that nobody asks for. -/
example : Settings.ofJson? .json
    (.obj [("pagination", .obj [("limit", .ofNat 50)]), ("theme", .null)]) =
      some { pagination := { limit := 50 } } := rfl

end NestedQuery
