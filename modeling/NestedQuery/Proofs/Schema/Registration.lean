import Mathlib.Data.List.Nodup
import NestedQuery.Schema.Catalog
/-!
# Registration

What the tables of a catalog hold is told by the models that were
registered, in order (`Catalog.Registered`): each name stands for the
one model that bears it, and the order is theirs. One registration
appends a model to the list (`Registered.register`), so a row of them
appends all (`Registered.registers`). Names are checked against those
taken before; that they pass one after the other is that no name of the
whole list is empty or taken twice (`Registered.registers_iff`).
-/

namespace NestedQuery

/-- The names that a model takes: its own and that of its group. -/
def Model.names (model : Model) : List String := [model.name, model.groupName]

theorem Model.mem_names_iff {model : Model} {name : String} :
    name ∈ model.names ↔ ∃ isGroup, model.nameAs isGroup = name := by
  simp [names, nameAs, eq_comm]

namespace Catalog

/-- The tables of a catalog are those of a list of models. -/
structure Registered (catalog : Catalog) (models : List Model) : Prop where
  named : ∀ model ∈ models, model.name ≠ "" ∧ model.groupName ≠ ""
  distinct : (models.flatMap Model.names).Nodup
  order : catalog.order = models.map Model.name
  entries : ∀ name model, catalog.entries.get? name = some model ↔
    model ∈ models ∧ model.name = name
  names : ∀ name target isGroup, catalog.names.get? name = some (target, isGroup) ↔
    ∃ model ∈ models, model.name = target ∧ model.nameAs isGroup = name

variable {catalog next : Catalog} {models before : List Model} {model : Model} {settings : Settings}

theorem registered_empty (settings : Settings) : (empty settings).Registered [] where
  named := by simp
  distinct := List.nodup_nil
  order := rfl
  entries := by simp [empty]
  names := by simp [empty]

namespace Registered

/-- A name is not taken if no model of the list bears it. -/
theorem get?_names_eq_none_iff (h : catalog.Registered models) {name : String} :
    catalog.names.get? name = none ↔ ∀ model ∈ models, name ∉ model.names := by
  simp only [Option.eq_none_iff_forall_not_mem, Option.mem_def, Prod.forall, h.names,
    Model.mem_names_iff]
  grind

/-- The names of a model may be taken if behind the others they are no repetition. -/
theorem free_iff (h : catalog.Registered models) :
    catalog.Free model ↔ ((models ++ [model]).flatMap Model.names).Nodup := by
  have hapart : (∀ other ∈ models, model.name ∉ other.names) ∧
      (∀ other ∈ models, model.groupName ∉ other.names) ↔
        (models.flatMap Model.names).Disjoint model.names := by
    rw [List.disjoint_comm, Model.names, List.disjoint_cons_left, List.disjoint_cons_left]
    simp
  have hown : model.names.Nodup ↔ model.name ≠ model.groupName := by simp [Model.names]
  rw [List.flatMap_append, List.flatMap_singleton, List.nodup_append', hown, ← hapart,
    ← h.get?_names_eq_none_iff, ← h.get?_names_eq_none_iff]
  exact ⟨fun free => ⟨h.distinct, free.own, free.name, free.group⟩,
    fun ⟨_, hown, hname, hgroup⟩ => ⟨hown, hname, hgroup⟩⟩

/-- **Entering a model appends it.** -/
theorem enter (h : catalog.Registered models) (free : catalog.Free model)
    (hnamed : model.name ≠ "" ∧ model.groupName ≠ "") :
    (catalog.enter model free).Registered (models ++ [model]) where
  named := List.forall_mem_append.2 ⟨h.named, List.forall_mem_singleton.2 hnamed⟩
  distinct := h.free_iff.1 free
  order := by
    rw [List.map_append, ← h.order]
    rfl
  entries name found := by
    have hfree := h.get?_names_eq_none_iff.1 free.name
    show (catalog.entries.put model.name model).get? name = some found ↔ _
    rw [Keyed.get?_put]
    split <;> simp only [h.entries, Model.names] at hfree ⊢ <;> grind
  names name target isGroup := by
    have hname := h.get?_names_eq_none_iff.1 free.name
    have hgroup := h.get?_names_eq_none_iff.1 free.group
    have hown := free.own
    show ((catalog.names.put model.name (model.name, false)).put model.groupName
      (model.name, true)).get? name = some (target, isGroup) ↔ _
    simp only [Keyed.get?_put]
    split
    · simp only [Model.names, Model.nameAs] at hname hgroup ⊢
      grind
    · split
      · simp only [Model.names, Model.nameAs] at hname hgroup ⊢
        grind
      · simp only [h.names, Model.nameAs]
        grind

end Registered

/-! ## Registering one model -/

/-- A model is registered if neither of its names is empty and both are free. -/
theorem register_iff : catalog.register model = .ok next ↔
    (model.name ≠ "" ∧ model.groupName ≠ "") ∧
      ∃ free : catalog.Free model, next = catalog.enter model free := by
  unfold register
  split
  · next hempty => simp [← not_or, hempty]
  · next hempty =>
    rw [and_iff_right (not_or.1 hempty)]
    split
    · next hown => exact iff_of_false (by simp) fun ⟨free, _⟩ => free.own hown
    · next hown =>
      split
      · next hname => exact iff_of_false (by simp) fun ⟨free, _⟩ => by simp [free.name] at hname
      · next hname =>
        split
        · next hgroup => exact iff_of_false (by simp) fun ⟨free, _⟩ => by simp [free.group] at hgroup
        · next hgroup =>
          rw [Except.ok.injEq, eq_comm]
          exact ⟨fun heq => ⟨⟨hown, hname, hgroup⟩, heq⟩, fun ⟨_, heq⟩ => heq⟩

/-- **A registration appends a model to those that the tables hold.** -/
theorem Registered.register (h : catalog.Registered models)
    (hregister : catalog.register model = .ok next) :
    next.Registered (models ++ [model]) ∧ next.settings = catalog.settings := by
  obtain ⟨hnamed, free, rfl⟩ := register_iff.1 hregister
  exact ⟨h.enter free hnamed, rfl⟩

/-! ## Registering one after the other -/

/-- **Registrations append all their models.** -/
theorem Registered.registers (h : catalog.Registered before)
    (hregister : models.foldlM Catalog.register catalog = .ok next) :
    next.Registered (before ++ models) ∧ next.settings = catalog.settings := by
  induction models generalizing catalog before with
  | nil =>
    obtain rfl := Except.ok.inj hregister
    exact ⟨(List.append_nil before).symm ▸ h, rfl⟩
  | cons model rest ih =>
    rw [List.foldlM_cons] at hregister
    cases hmid : catalog.register model with
    | error fault => simp [hmid, bind, Except.bind] at hregister
    | ok mid =>
      rw [hmid] at hregister
      obtain ⟨hregistered, hsettings⟩ := h.register hmid
      obtain ⟨hnext, hsame⟩ := ih hregistered hregister
      rw [List.append_assoc] at hnext
      exact ⟨hnext, hsame.trans hsettings⟩

/-- **They go well** if no name is empty, and none of the whole list is taken twice. -/
theorem Registered.registers_iff (h : catalog.Registered before) :
    (∃ next, models.foldlM Catalog.register catalog = .ok next) ↔
      (∀ model ∈ models, model.name ≠ "" ∧ model.groupName ≠ "") ∧
        ((before ++ models).flatMap Model.names).Nodup := by
  induction models generalizing catalog before with
  | nil =>
    rw [List.append_nil]
    exact iff_of_true ⟨catalog, rfl⟩ ⟨by simp, h.distinct⟩
  | cons model rest ih =>
    rw [List.foldlM_cons, List.forall_mem_cons, List.append_cons]
    by_cases hmodel : (model.name ≠ "" ∧ model.groupName ≠ "") ∧ catalog.Free model
    · obtain ⟨hnamed, free⟩ := hmodel
      have hmid := register_iff.2 ⟨hnamed, free, rfl⟩
      rw [hmid, and_iff_right hnamed]
      exact ih (h.enter free hnamed)
    · -- the first model alone is refused, and so is the list
      cases hmid : catalog.register model with
      | ok mid =>
        obtain ⟨hnamed, free, -⟩ := register_iff.1 hmid
        exact absurd ⟨hnamed, free⟩ hmodel
      | error fault =>
        refine iff_of_false (by simp [bind, Except.bind]) fun ⟨⟨hnamed, _⟩, hnodup⟩ =>
          hmodel ⟨hnamed, h.free_iff.2 ?_⟩
        rw [List.flatMap_append] at hnodup
        exact (List.nodup_append'.1 hnodup).1

/-! ## Look-up in what was registered -/

namespace Registered

/-- The models of a catalog are those registered, in order. -/
theorem models_eq (h : catalog.Registered models) : catalog.models = models := by
  have hfound : ∀ model ∈ models, catalog.entries.get? model.name = some model := fun model hmem =>
    (h.entries _ _).2 ⟨hmem, rfl⟩
  rw [Catalog.models, h.order, List.filterMap_map]
  exact (List.filterMap_congr hfound).trans List.filterMap_some

/-- A name as one record or as a list stands for the one model that bears it so. -/
theorem resolve?_iff (h : catalog.Registered models) {name : String} {isGroup : Bool} :
    catalog.resolve? name = some ⟨model, isGroup⟩ ↔
      model ∈ models ∧ model.nameAs isGroup = name := by
  constructor
  · intro hresolved
    unfold resolve? at hresolved
    split at hresolved
    · cases hresolved
    · next target taken htaken =>
      obtain ⟨found, hfound, heq⟩ := Option.map_eq_some_iff.1 hresolved
      obtain ⟨rfl, rfl⟩ := Resolved.mk.inj heq
      obtain ⟨hmem, hname⟩ := (h.entries _ _).1 hfound
      obtain ⟨other, hother, rfl, hbears⟩ := (h.names _ _ _).1 htaken
      have hsame := (h.entries _ _).2 ⟨hother, rfl⟩
      obtain rfl := Option.some.inj (hfound.symm.trans hsame)
      exact ⟨hmem, hbears⟩
  · rintro ⟨hmem, rfl⟩
    rw [resolve?, (h.names _ _ _).2 ⟨model, hmem, rfl, rfl⟩]
    exact congrArg (Option.map fun found => (⟨found, isGroup⟩ : Resolved))
      ((h.entries _ _).2 ⟨hmem, rfl⟩)

/-- Nothing is found under a name that no model bears. -/
theorem resolve?_eq_none_iff (h : catalog.Registered models) {name : String} :
    catalog.resolve? name = none ↔ ∀ model ∈ models, name ∉ model.names := by
  rw [← h.get?_names_eq_none_iff, resolve?]
  split
  · next hnone => exact iff_of_true rfl hnone
  · next target isGroup htaken =>
    -- the name leads to an entry, so that something is found
    obtain ⟨model, hmodel, -⟩ := catalog.borne _ _ _ htaken
    rw [htaken, show catalog.model? target = some model from hmodel]
    exact iff_of_false nofun nofun

end Registered

end Catalog

end NestedQuery
