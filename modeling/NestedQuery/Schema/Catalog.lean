import NestedQuery.Schema.Model
import NestedQuery.Schema.Settings
/-!
# Catalogs

A catalog keeps its models in a table by name, beside a table of all
names that are taken and the order in which the models came. Models are
registered one by one: names are checked against those taken before, and
a catalog carries along that its tables agree. `Catalog.build` checks the
relations once all models are registered, so that a relation may refer to
a later model or to its own. The first fault found is reported.
-/

namespace NestedQuery

/-- Why a list of models is no catalog. -/
inductive CatalogFault where
  | emptyName
  | ownGroupName (model : String)
  | nameTaken (name : String)
  | notAColumn (model key : String)
  | unknownModel (model referenced : String)
deriving DecidableEq

/-- The wording of a catalog fault. -/
def CatalogFault.message : CatalogFault → String
  | emptyName => "model name and group name must not be empty"
  | ownGroupName model => "model '" ++ model ++ "' uses its own name as group name"
  | nameTaken name => "name '" ++ name ++ "' is already registered"
  | notAColumn model key => "'" ++ model ++ "." ++ key ++ "' is not a column"
  | unknownModel model referenced =>
    "'" ++ model ++ "' references unknown model '" ++ referenced ++ "'"

/-- Models under their names, in the order they were registered, and the settings for requests to
them. -/
structure Catalog where
  /-- The models, by name. -/
  entries : Keyed Model
  /-- Each name that is taken, with the name of the model that took it and whether it is that of the
  group. -/
  names : Keyed (String × Bool)
  /-- The names of the models, oldest first. -/
  order : List String
  settings : Settings
  /-- A model stands under its own name, which it has taken, and it is in the order. -/
  entered : ∀ name model, entries.get? name = some model →
    model.name = name ∧ name ∈ order ∧ names.get? name = some (name, false)
  /-- A name that is taken leads to a model that bears it. -/
  borne : ∀ name target isGroup, names.get? name = some (target, isGroup) →
    ∃ model, entries.get? target = some model ∧ model.nameAs isGroup = name

/-- A model found under one of its names, and whether that was the group name. -/
structure Resolved where
  model : Model
  isGroup : Bool

namespace Catalog

/-! ## Look-up -/

/-- The models, in the order they were registered. -/
def models (catalog : Catalog) : List Model := catalog.order.filterMap catalog.entries.get?

/-- The model of a name; group names do not count. -/
def model? (catalog : Catalog) (name : String) : Option Model := catalog.entries.get? name

/-- The model found under a name or a group name. -/
def resolve? (catalog : Catalog) (name : String) : Option Resolved :=
  match catalog.names.get? name with
  | none => none
  | some (target, isGroup) => (catalog.model? target).map fun model => ⟨model, isGroup⟩

/-- The columns of a model; none if the name is unknown. -/
def columns (catalog : Catalog) (name : String) : List Column :=
  match catalog.model? name with
  | some model => model.columns
  | none => []

/-- The special columns of a model; none if the name is unknown. -/
def specialColumns (catalog : Catalog) (name : String) : List Column :=
  (catalog.columns name).filter Column.isSpecial

/-! ## Registration -/

/-- The catalog of no models. -/
def empty (settings : Settings) : Catalog where
  entries := []
  names := []
  order := []
  settings := settings
  entered := by simp
  borne := by simp

instance : Inhabited Catalog := ⟨empty default⟩

/-- The names of a model may be taken: they differ, and no model before took one of them. -/
structure Free (catalog : Catalog) (model : Model) : Prop where
  own : model.name ≠ model.groupName
  name : catalog.names.get? model.name = none
  group : catalog.names.get? model.groupName = none

section

variable {catalog : Catalog} {model : Model}

theorem Free.entered (free : catalog.Free model) (name : String) (found : Model)
    (hfound : (catalog.entries.put model.name model).get? name = some found) :
    found.name = name ∧ name ∈ catalog.order ++ [model.name] ∧
      ((catalog.names.put model.name (model.name, false)).put model.groupName
        (model.name, true)).get? name = some (name, false) := by
  rw [Keyed.get?_put] at hfound
  simp only [Keyed.get?_put]
  split at hfound
  · next heq =>
    obtain rfl := Option.some.inj hfound
    subst heq
    exact ⟨rfl, by simp, by rw [if_neg free.own.symm, if_pos rfl]⟩
  · next hne =>
    obtain ⟨hname, horder, htaken⟩ := catalog.entered name found hfound
    have hgroup : model.groupName ≠ name := by
      rintro rfl
      simp [free.group] at htaken
    exact ⟨hname, List.mem_append_left _ horder, by rw [if_neg hgroup, if_neg hne, htaken]⟩

theorem Free.borne (free : catalog.Free model) (name target : String) (isGroup : Bool)
    (htaken : ((catalog.names.put model.name (model.name, false)).put model.groupName
      (model.name, true)).get? name = some (target, isGroup)) :
    ∃ found, (catalog.entries.put model.name model).get? target = some found ∧
      found.nameAs isGroup = name := by
  simp only [Keyed.get?_put] at htaken ⊢
  split at htaken
  · next heq =>
    obtain ⟨rfl, rfl⟩ := Prod.mk.inj (Option.some.inj htaken)
    exact ⟨model, if_pos rfl, heq⟩
  · split at htaken
    · next heq =>
      obtain ⟨rfl, rfl⟩ := Prod.mk.inj (Option.some.inj htaken)
      exact ⟨model, if_pos rfl, heq⟩
    · obtain ⟨found, hfound, hname⟩ := catalog.borne name target isGroup htaken
      -- the model found was there before, so it has another name
      have hne : model.name ≠ target := by
        rintro rfl
        simpa [free.name] using (catalog.entered _ found hfound).2.2
      exact ⟨found, by rw [if_neg hne, hfound], hname⟩

end

/-- Enters a model into the tables. -/
def enter (catalog : Catalog) (model : Model) (free : catalog.Free model) : Catalog where
  entries := catalog.entries.put model.name model
  names := (catalog.names.put model.name (model.name, false)).put model.groupName (model.name, true)
  order := catalog.order ++ [model.name]
  settings := catalog.settings
  entered := free.entered
  borne := free.borne

/-- Registers a model under its two names. -/
def register (catalog : Catalog) (model : Model) : Except CatalogFault Catalog :=
  if model.name = "" ∨ model.groupName = "" then .error .emptyName
  else if hown : model.name = model.groupName then .error (.ownGroupName model.name)
  else match hname : catalog.names.get? model.name with
    | some _ => .error (.nameTaken model.name)
    | none => match hgroup : catalog.names.get? model.groupName with
      | some _ => .error (.nameTaken model.groupName)
      | none => .ok (catalog.enter model ⟨hown, hname, hgroup⟩)

/-! ## Relations -/

/-- Checks a relation of a model. -/
def checkRelation (catalog : Catalog) (model : Model) (relation : Relation) :
    Except CatalogFault Unit :=
  if model.hasColumn relation.localKey then
    match catalog.model? relation.model with
    | none => .error (.unknownModel model.name relation.model)
    | some target =>
      if target.hasColumn relation.referencedKey then .ok ()
      else .error (.notAColumn relation.model relation.referencedKey)
  else .error (.notAColumn model.name relation.localKey)

/-- Checks relations one after the other. -/
def checkRelations (catalog : Catalog) : List (Model × Relation) → Except CatalogFault Unit
  | [] => .ok ()
  | (model, relation) :: rest =>
    match catalog.checkRelation model relation with
    | .error fault => .error fault
    | .ok () => catalog.checkRelations rest

/-- The relations of all models, each with the model that declares it. -/
def declared (models : List Model) : List (Model × Relation) :=
  models.flatMap fun model => model.relations.map fun relation => (model, relation)

/-! ## Building -/

/-- The catalog of a list of models, or the first fault in it. -/
def build (models : List Model) (settings : Settings) : Except CatalogFault Catalog :=
  match models.foldlM register (empty settings) with
  | .error fault => .error fault
  | .ok catalog =>
    match catalog.checkRelations (declared catalog.models) with
    | .error fault => .error fault
    | .ok () => .ok catalog

end Catalog

end NestedQuery
