import NestedQuery.Proofs.Json.JoinKeys
/-!
# What stands in the lists of a value

A value is read as a constraint in two ways: as a key, whose nulls put no
constraint (`Constraint.ofKey?`), and as the writing of a constraint, in
which no null may stand (`Constraint.ofJson?`). Both go down through
lists and look into nothing else. So what stands in the lists of a value
(`Json.Within`) tells when it is a writing, and that both readings are
then the same; and its leaves tell which values its constraint admits
(`Constraint.readings_agree`).
-/

namespace NestedQuery

namespace Json

/-! ## Lists in lists -/

/-- A value stands in another: it is that value, or stands in an item of it. Objects are not looked
into. -/
inductive Within (part : Json) : Json → Prop
  | self : Within part part
  | item {items : List Json} {item : Json} (hmem : item ∈ items) (hpart : Within part item) :
      Within part (arr items)

/-- A leaf of a value stands in it, and is neither null nor a list. -/
structure Leaf (leaf value : Json) : Prop where
  within : leaf.Within value
  not_null : leaf ≠ null
  not_list : ∀ items, leaf ≠ arr items

/-- Induction that goes down through lists and stops at everything else. -/
theorem list_induction {motive : Json → Prop}
    (single : ∀ value : Json, (∀ items, value ≠ arr items) → motive value)
    (list : ∀ items : List Json, (∀ item ∈ items, motive item) → motive (arr items)) :
    ∀ value : Json, motive value
  | null | bool _ | num _ | str _ | obj _ => single _ (fun _ h => Json.noConfusion h)
  | arr items => list items fun item _ => list_induction single list item

theorem within_arr_iff {part : Json} {items : List Json} :
    part.Within (arr items) ↔ part = arr items ∨ ∃ item ∈ items, part.Within item := by
  constructor
  · intro h
    cases h with
    | self => exact Or.inl rfl
    | item hmem hpart => exact Or.inr ⟨_, hmem, hpart⟩
  · rintro (rfl | ⟨item, hmem, hpart⟩)
    · exact .self
    · exact .item hmem hpart

theorem within_iff_eq {part value : Json} (h : ∀ items, value ≠ arr items) :
    part.Within value ↔ part = value := by
  constructor
  · intro hpart
    cases hpart with
    | self => rfl
    | item => exact absurd rfl (h _)
  · rintro rfl
    exact .self

/-- The leaves of a list are those of its items. -/
theorem leaf_arr_iff {leaf : Json} {items : List Json} :
    leaf.Leaf (arr items) ↔ ∃ item ∈ items, leaf.Leaf item := by
  constructor
  · rintro ⟨hwithin, hnull, hlist⟩
    rcases within_arr_iff.1 hwithin with heq | ⟨item, hmem, hpart⟩
    · exact absurd heq (hlist items)
    · exact ⟨item, hmem, hpart, hnull, hlist⟩
  · rintro ⟨item, hmem, hwithin, hnull, hlist⟩
    exact ⟨.item hmem hwithin, hnull, hlist⟩

/-! ## Without the nulls -/

mutual

/-- A key as a row takes it over: without the nulls in its lists, and not at all if it is null. -/
def taken? : Json → Option Json
  | null => none
  | arr items => some (arr (takenAll items))
  | other => some other

/-- Several keys as a row takes them over. -/
def takenAll : List Json → List Json
  | [] => []
  | key :: rest =>
    match taken? key with
    | some value => value :: takenAll rest
    | none => takenAll rest

end

theorem takenAll_eq (keys : List Json) : takenAll keys = keys.filterMap taken? := by
  induction keys with
  | nil => rfl
  | cons key rest ih =>
    rw [takenAll, List.filterMap_cons, ih]
    cases taken? key <;> rfl

/-- No null stands in what is taken over. -/
theorem not_within_taken? {key taken : Json} (h : key.taken? = some taken) :
    ¬ null.Within taken := by
  induction key using list_induction generalizing taken with
  | single key hsingle =>
    have hkey : taken = key ∧ key ≠ null := by
      cases key with
      | arr items => exact absurd rfl (hsingle items)
      | null => cases h
      | _ => exact ⟨(Option.some.inj h).symm, Json.noConfusion⟩
    obtain ⟨rfl, hnull⟩ := hkey
    rw [within_iff_eq hsingle]
    exact hnull.symm
  | list items ih =>
    obtain rfl := Option.some.inj h
    rw [within_arr_iff, takenAll_eq]
    -- a null would stand in what is taken over of some item
    rintro (heq | ⟨item, hmem, hpart⟩)
    · exact Json.noConfusion heq
    · obtain ⟨key, hkey, htaken⟩ := List.mem_filterMap.1 hmem
      exact ih key hkey htaken hpart

/-- What no null stands in is taken over as it is. -/
theorem taken?_eq_self {key : Json} (h : ¬ null.Within key) : key.taken? = some key := by
  induction key using list_induction with
  | single key hsingle =>
    cases key with
    | arr items => exact absurd rfl (hsingle items)
    | null => exact absurd .self h
    | _ => rfl
  | list items ih =>
    have hitems : ∀ item ∈ items, item.taken? = some item :=
      fun item hmem => ih item hmem fun hnull => h (.item hmem hnull)
    rw [taken?, takenAll_eq, List.filterMap_congr hitems, List.filterMap_some]

end Json

namespace Constraint

open Json

mutual

/-- What the constraint of a key writes is the key as it is taken over. -/
theorem map_toJson_ofKey? : ∀ key : Json, (ofKey? key).map toJson = key.taken?
  | .null => rfl
  | .bool _ => rfl
  | .num _ => rfl
  | .str _ => rfl
  | .obj _ => rfl
  | .arr items => by
    rw [ofKey?, Option.map_some, toJson, toJsons_ofKeys items, Json.taken?]

theorem toJsons_ofKeys : ∀ keys : List Json, toJsons (ofKeys keys) = Json.takenAll keys
  | [] => rfl
  | key :: rest => by
    have hkey := map_toJson_ofKey? key
    rw [ofKeys, Json.takenAll, ← hkey, ← toJsons_ofKeys rest]
    cases ofKey? key <;> rfl

end

/-! ## Constraints read back -/

mutual

/-- A constraint is that of the key that writes it. -/
theorem ofKey?_toJson : ∀ constraint : Constraint, ofKey? constraint.toJson = some constraint
  | bool _ | number _ | string _ | object _ => rfl
  | anyOf options => by
    rw [toJson, ofKey?, ofKeys_toJsons options]

theorem ofKeys_toJsons : ∀ options : List Constraint, ofKeys (toJsons options) = options
  | [] => rfl
  | option :: rest => by
    rw [toJsons, ofKeys, ofKey?_toJson option, ofKeys_toJsons rest]

end

/-- No null stands in what writes a constraint. -/
theorem not_within_toJson (constraint : Constraint) : ¬ null.Within constraint.toJson := by
  have htaken : constraint.toJson.taken? = some constraint.toJson := by
    rw [← map_toJson_ofKey?, ofKey?_toJson, Option.map_some]
  exact not_within_taken? htaken

theorem ofJsons?_eq_mapM (values : List Json) : ofJsons? values = values.mapM ofJson? := by
  induction values with
  | nil => rfl
  | cons value rest ih =>
    rw [ofJsons?, List.mapM_cons, ih]
    cases ofJson? value <;> cases rest.mapM ofJson? <;> rfl

/-- Of several values not all are writings if one is none. -/
theorem ofJsons?_eq_none_iff {values : List Json} :
    ofJsons? values = none ↔ ∃ value ∈ values, ofJson? value = none := by
  induction values with
  | nil => simp [ofJsons?]
  | cons value rest ih =>
    rw [ofJsons?, List.exists_mem_cons_iff, ← ih]
    cases ofJson? value <;> cases ofJsons? rest <;> simp

/-- **A value writes no constraint exactly if null stands in it.** -/
theorem ofJson?_eq_none_iff {value : Json} : ofJson? value = none ↔ null.Within value := by
  induction value using list_induction with
  | single value hsingle =>
    rw [within_iff_eq hsingle]
    cases value with
    | arr items => exact absurd rfl (hsingle items)
    | _ => simp [ofJson?]
  | list items ih =>
    rw [ofJson?, Option.map_eq_none_iff, ofJsons?_eq_none_iff, within_arr_iff]
    constructor
    · rintro ⟨item, hmem, hnone⟩
      exact Or.inr ⟨item, hmem, (ih item hmem).1 hnone⟩
    · rintro (heq | ⟨item, hmem, hnull⟩)
      · exact Json.noConfusion heq
      · exact ⟨item, hmem, (ih item hmem).2 hnull⟩

theorem ofJsons?_eq_ofKeys {values : List Json}
    (h : ∀ value ∈ values, ofJson? value = ofKey? value ∧ ofJson? value ≠ none) :
    ofJsons? values = some (ofKeys values) := by
  induction values with
  | nil => rfl
  | cons value rest ih =>
    obtain ⟨⟨hsame, hsome⟩, hrest⟩ := List.forall_mem_cons.1 h
    obtain ⟨constraint, hconstraint⟩ := Option.ne_none_iff_exists'.1 hsome
    rw [ofJsons?, ofKeys, ← hsame, hconstraint, ih hrest]

/-- **A value that writes a constraint puts it as a key.** -/
theorem ofJson?_eq_ofKey? {value : Json} (h : ¬ null.Within value) :
    ofJson? value = ofKey? value := by
  induction value using list_induction with
  | single value hsingle =>
    cases value with
    | arr items => exact absurd rfl (hsingle items)
    | _ => rfl
  | list items ih =>
    have hitems : ∀ item ∈ items, ofJson? item = ofKey? item ∧ ofJson? item ≠ none := by
      intro item hmem
      have hnull : ¬ null.Within item := fun hnull => h (.item hmem hnull)
      exact ⟨ih item hmem hnull, mt ofJson?_eq_none_iff.1 hnull⟩
    rw [ofJson?, ofKey?, ofJsons?_eq_ofKeys hitems, Option.map_some]

/-- **What writes a constraint is read as that constraint.** -/
theorem ofJson?_toJson (constraint : Constraint) : ofJson? constraint.toJson = some constraint := by
  rw [ofJson?_eq_ofKey? (not_within_toJson constraint), ofKey?_toJson]

/-- What a value may write, in order: what a column type accepts, or a list of constraints. -/
def alternatives : List (Json → Option Constraint) :=
  [ColumnType.bool.accept?, ColumnType.number.accept?, ColumnType.string.accept?,
    ColumnType.object.accept?,
    fun value => value.items?.bind fun items => (items.mapM ofJson?).map anyOf]

/-- **The alternatives are apart**, so that their order does not matter: a value writes what any of
them reads of it. -/
theorem ofJson?_eq_some_iff {value : Json} {constraint : Constraint} :
    ofJson? value = some constraint ↔ ∃ read ∈ alternatives, read value = some constraint := by
  simp only [alternatives, List.exists_mem_cons_iff, List.not_mem_nil, false_and, exists_false,
    or_false]
  cases value <;> simp [ofJson?, ofJsons?_eq_mapM, ColumnType.accept?, items?]

/-! ## Leaves -/

/-- A key selects a value: it puts a constraint, and the value satisfies it. -/
def Selects (key value : Json) : Prop :=
  ∃ constraint, ofKey? key = some constraint ∧ constraint.admits value = true

theorem selects_iff {key value : Json} :
    Selects key value ↔ ((ofKey? key).getD (.anyOf [])).admits value = true := by
  unfold Selects
  cases ofKey? key <;> simp [admits, anyAdmits]

/-- A list selects what one of its items does. -/
theorem selects_arr_iff {items : List Json} {value : Json} :
    Selects (.arr items) value ↔ ∃ item ∈ items, Selects item value := by
  simp only [selects_iff, ← admits_anyOfKeys_iff]
  rw [ofKey?, Option.getD_some, anyOfKeys]

/-- **A key selects what one of its leaves does.** -/
theorem selects_iff_leaf {key value : Json} :
    Selects key value ↔ ∃ leaf : Json, leaf.Leaf key ∧ Selects leaf value := by
  induction key using list_induction with
  | single key hsingle =>
    constructor
    · intro hselects
      refine ⟨key, ⟨.self, ?_, hsingle⟩, hselects⟩
      rintro rfl
      obtain ⟨constraint, hconstraint, -⟩ := hselects
      cases hconstraint
    · rintro ⟨leaf, hleaf, hselects⟩
      rwa [(within_iff_eq hsingle).1 hleaf.within] at hselects
  | list items ih =>
    rw [selects_arr_iff]
    constructor
    · rintro ⟨item, hmem, hselects⟩
      obtain ⟨leaf, hleaf, hselects⟩ := (ih item hmem).1 hselects
      exact ⟨leaf, leaf_arr_iff.2 ⟨item, hmem, hleaf⟩, hselects⟩
    · rintro ⟨leaf, hleaf, hselects⟩
      obtain ⟨item, hmem, hleaf⟩ := leaf_arr_iff.1 hleaf
      exact ⟨item, hmem, (ih item hmem).2 ⟨leaf, hleaf, hselects⟩⟩

/-- **The readings of a value as a constraint agree.** What writes a constraint is read as that
constraint in both ways. A value that is not null puts a constraint, which writes the value without
the nulls in its lists; what is left over has none of them, and is the whole value if none stood in
it. A value in which null stands writes no constraint, and any other the one it puts as a key. What
a key selects is what one of its leaves does. -/
theorem readings_agree :
    (∀ constraint : Constraint,
      ofKey? constraint.toJson = some constraint ∧ ofJson? constraint.toJson = some constraint) ∧
    (∀ value : Json,
      (ofKey? value = none ↔ value = .null) ∧
      (ofKey? value).map toJson = value.taken? ∧
      (∀ taken, value.taken? = some taken → ¬ null.Within taken) ∧
      (¬ null.Within value → value.taken? = some value)) ∧
    (∀ value : Json,
      (ofJson? value = none ↔ null.Within value) ∧
      (¬ null.Within value → ofJson? value = ofKey? value)) ∧
    ∀ key value : Json,
      Selects key value ↔ ∃ leaf : Json, leaf.Leaf key ∧ Selects leaf value :=
  ⟨fun constraint => ⟨ofKey?_toJson constraint, ofJson?_toJson constraint⟩,
    fun value => ⟨ofKey?_eq_none_iff, map_toJson_ofKey? value, fun _ => not_within_taken?,
      taken?_eq_self⟩,
    fun _ => ⟨ofJson?_eq_none_iff, ofJson?_eq_ofKey?⟩,
    fun _ _ => selects_iff_leaf⟩

end Constraint

end NestedQuery
