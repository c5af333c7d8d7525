import NestedQuery.Proofs.Schema.Accepted
/-!
# Which models make a catalog

A list of models is well formed if no name in it is empty, none is taken
twice and every relation joins two columns that are there. That is said
of the list as a whole. The models are registered one by one, and the
relations are checked afterwards; `Catalog.exists_build_iff_wellFormed`
says that this decides it.
-/

namespace NestedQuery

namespace Catalog

/-- Models that fit together. -/
structure WellFormed (models : List Model) : Prop where
  named : ∀ model ∈ models, model.name ≠ "" ∧ model.groupName ≠ ""
  distinct : (models.flatMap Model.names).Nodup
  /-- The model that a relation refers to may stand before its own, behind it, or be the same. -/
  related : ∀ model ∈ models, ∀ relation ∈ model.relations,
    relation.localKey ∈ model.columns.map Column.key ∧
      ∃ target ∈ models, target.name = relation.model ∧
        relation.referencedKey ∈ target.columns.map Column.key

/-- A catalog of just these models, in order, in which every name stands for the one model that
bears it. -/
structure Lists (catalog : Catalog) (models : List Model) (settings : Settings) : Prop where
  models_eq : catalog.models = models
  settings_eq : catalog.settings = settings
  name : ∀ name model, catalog.resolve? name = some ⟨model, false⟩ ↔
    model ∈ models ∧ model.name = name
  group : ∀ name model, catalog.resolve? name = some ⟨model, true⟩ ↔
    model ∈ models ∧ model.groupName = name
  none : ∀ name, catalog.resolve? name = none ↔
    ∀ model ∈ models, model.name ≠ name ∧ model.groupName ≠ name

/-- What `build` makes of a list of models. -/
structure Builds (models : List Model) (settings : Settings) : Prop where
  /-- There is a catalog of the models just if they fit together. -/
  accepts : (∃ catalog, build models settings = .ok catalog) ↔ WellFormed models
  lists : ∀ catalog, build models settings = .ok catalog → catalog.Lists models settings

variable {catalog : Catalog} {models : List Model} {settings : Settings}

/-- Once some models are registered, a relation passes if it joins two columns that are there. -/
theorem Registered.checkRelation_iff (h : catalog.Registered models) {model : Model}
    {relation : Relation} :
    catalog.checkRelation model relation = .ok () ↔
      relation.localKey ∈ model.columns.map Column.key ∧
        ∃ target ∈ models, target.name = relation.model ∧
          relation.referencedKey ∈ target.columns.map Column.key := by
  simp only [Catalog.checkRelation_iff, model?, h.entries, Model.hasColumn_iff, and_assoc]

/-- And all pass if all the models do. -/
theorem Registered.checkRelations_iff (h : catalog.Registered models) :
    catalog.checkRelations (declared models) = .ok () ↔
      ∀ model ∈ models, ∀ relation ∈ model.relations,
        relation.localKey ∈ model.columns.map Column.key ∧
          ∃ target ∈ models, target.name = relation.model ∧
            relation.referencedKey ∈ target.columns.map Column.key := by
  rw [Catalog.checkRelations_iff, declared, List.forall_mem_flatMap]
  simp only [List.forall_mem_map, h.checkRelation_iff]

/-- **The checks decide whether models fit together**: those of the names while the models are
registered, those of the relations afterwards. -/
theorem exists_build_iff_wellFormed :
    (∃ catalog, build models settings = .ok catalog) ↔ WellFormed models := by
  have hregisters : (∃ catalog, models.foldlM register (empty settings) = .ok catalog) ↔
      (∀ model ∈ models, model.name ≠ "" ∧ model.groupName ≠ "") ∧
        (models.flatMap Model.names).Nodup := (registered_empty settings).registers_iff
  constructor
  · rintro ⟨catalog, hbuild⟩
    obtain ⟨hregister, hrelations⟩ := build_iff.1 hbuild
    obtain ⟨hnamed, hdistinct⟩ := hregisters.1 ⟨catalog, hregister⟩
    have hregistered := (registered_of_build hbuild).1
    rw [hregistered.models_eq] at hrelations
    exact ⟨hnamed, hdistinct, hregistered.checkRelations_iff.1 hrelations⟩
  · intro h
    obtain ⟨catalog, hregister⟩ := hregisters.2 ⟨h.named, h.distinct⟩
    have hregistered : catalog.Registered models :=
      ((registered_empty settings).registers hregister).1
    refine ⟨catalog, build_iff.2 ⟨hregister, ?_⟩⟩
    rw [hregistered.models_eq]
    exact hregistered.checkRelations_iff.2 h.related

/-- The tables list their models. -/
theorem Registered.lists (h : catalog.Registered models) : catalog.Lists models catalog.settings where
  models_eq := h.models_eq
  settings_eq := rfl
  name _ _ := h.resolve?_iff
  group _ _ := h.resolve?_iff
  none _ := by
    rw [h.resolve?_eq_none_iff]
    simp only [Model.names, List.mem_cons, List.not_mem_nil, or_false, not_or, Ne, eq_comm]

/-- Exactly the models that fit together make a catalog, and each name in it stands for one model,
found as one record under its own name and as a list under that of its group. -/
theorem builds (models : List Model) (settings : Settings) : Builds models settings where
  accepts := exists_build_iff_wellFormed
  lists catalog h := by
    obtain ⟨hregistered, rfl⟩ := registered_of_build h
    exact hregistered.lists

/-- The books of the library may be listed before the authors that they refer to. -/
example : WellFormed [Library.book, Library.author] :=
  (@exists_build_iff_wellFormed _ {}).1 ⟨_, rfl⟩

end Catalog

end NestedQuery
