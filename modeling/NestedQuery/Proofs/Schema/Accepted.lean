import NestedQuery.Proofs.Schema.Registration
/-!
# Accepted catalogs

A catalog is accepted if `Catalog.build` makes it. What that gives is
stated here once: the tables hold the models, so that a model is found
under its name and under the name of its group, and a relation goes from
a column of its own model to a column of the model it names.
-/

namespace NestedQuery

namespace Model

variable {model : Model} {key : String}

/-- The keys of the declared columns are those that count as columns. -/
theorem hasColumn_iff : model.hasColumn key = true ↔ key ∈ model.columns.map Column.key := by
  simp [hasColumn, column?]

/-- A declared column is found. -/
theorem hasColumn_of_mem {column : Column} (h : column ∈ model.columns) :
    model.hasColumn column.key = true :=
  hasColumn_iff.2 (List.mem_map_of_mem h)

theorem hasColumn_eq_false_iff :
    model.hasColumn key = false ↔ ∀ column ∈ model.columns, column.key ≠ key := by
  rw [← Bool.not_eq_true, hasColumn_iff, List.mem_map]
  simp

end Model

namespace Catalog

/-- A catalog that was built of its models. -/
def Accepted (catalog : Catalog) : Prop :=
  build catalog.models catalog.settings = .ok catalog

/-! ## What the checks say -/

theorem checkRelations_iff {catalog : Catalog} {pairs : List (Model × Relation)} :
    catalog.checkRelations pairs = .ok () ↔
      ∀ pair ∈ pairs, catalog.checkRelation pair.1 pair.2 = .ok () := by
  induction pairs with
  | nil => simp [checkRelations]
  | cons pair rest ih =>
    rw [checkRelations, List.forall_mem_cons, ← ih]
    cases catalog.checkRelation pair.1 pair.2 <;> simp

/-- A relation passes if it goes from a column of its model to a column of the model of the name it
refers to. -/
theorem checkRelation_iff {catalog : Catalog} {model : Model} {relation : Relation} :
    catalog.checkRelation model relation = .ok () ↔ model.hasColumn relation.localKey = true ∧
      ∃ target, catalog.model? relation.model = some target ∧
        target.hasColumn relation.referencedKey = true := by
  unfold checkRelation
  split
  · next hlocal => cases catalog.model? relation.model <;> simp [hlocal]
  · next hlocal => simp [hlocal]

/-- A catalog is built if the models are registered and the relations pass. -/
theorem build_iff {models : List Model} {settings : Settings} {catalog : Catalog} :
    build models settings = .ok catalog ↔
      models.foldlM register (empty settings) = .ok catalog ∧
        catalog.checkRelations (declared catalog.models) = .ok () := by
  unfold build
  cases models.foldlM register (empty settings) with
  | error fault => simp
  | ok built =>
    cases hrelations : built.checkRelations (declared built.models) with
    | error fault =>
      refine iff_of_false (by simp [hrelations]) ?_
      rintro ⟨heq, hpass⟩
      obtain rfl := Except.ok.inj heq
      simp [hrelations] at hpass
    | ok _ =>
      simp only [hrelations, Except.ok.injEq]
      exact ⟨fun heq => ⟨heq, heq ▸ hrelations⟩, And.left⟩

/-- What is built of some models holds them, in order. -/
theorem registered_of_build {models : List Model} {settings : Settings} {catalog : Catalog}
    (h : build models settings = .ok catalog) :
    catalog.Registered models ∧ catalog.settings = settings :=
  (registered_empty settings).registers (build_iff.1 h).1

/-- And so it is accepted. -/
theorem accepted_of_build {models : List Model} {settings : Settings} {catalog : Catalog}
    (h : build models settings = .ok catalog) : catalog.Accepted := by
  obtain ⟨hregistered, hsettings⟩ := registered_of_build h
  rwa [Accepted, hregistered.models_eq, hsettings]

/-- What is found under a name is a model of the catalog that bears it. -/
theorem resolve?_eq_some {catalog : Catalog} {name : String} {resolved : Resolved}
    (h : catalog.resolve? name = some resolved) : resolved.model ∈ catalog.models ∧
      resolved.model.nameAs resolved.isGroup = name := by
  unfold resolve? at h
  split at h
  · cases h
  · next target isGroup htaken =>
    obtain ⟨model, hmodel, rfl⟩ := Option.map_eq_some_iff.1 h
    obtain ⟨other, hother, hname⟩ := catalog.borne _ _ _ htaken
    obtain rfl := Option.some.inj (hmodel.symm.trans hother)
    exact ⟨List.mem_filterMap.2 ⟨target, (catalog.entered _ _ hmodel).2.1, hmodel⟩, hname⟩

namespace Accepted

variable {catalog : Catalog}

/-- The tables of an accepted catalog are those of its models. -/
theorem registered (h : catalog.Accepted) : catalog.Registered catalog.models :=
  (registered_of_build h).1

/-- A model is found under its name. -/
theorem model?_name (h : catalog.Accepted) {model : Model} (hmem : model ∈ catalog.models) :
    catalog.model? model.name = some model :=
  (h.registered.entries _ _).2 ⟨hmem, rfl⟩

/-- The name of a model stands for one record. -/
theorem resolve?_name (h : catalog.Accepted) {model : Model} (hmem : model ∈ catalog.models) :
    catalog.resolve? model.name = some ⟨model, false⟩ :=
  h.registered.resolve?_iff.2 ⟨hmem, rfl⟩

/-- The group name of a model stands for a list. -/
theorem resolve?_groupName (h : catalog.Accepted) {model : Model} (hmem : model ∈ catalog.models) :
    catalog.resolve? model.groupName = some ⟨model, true⟩ :=
  h.registered.resolve?_iff.2 ⟨hmem, rfl⟩

/-- A relation goes from a column of its model to a column of the model it names. -/
theorem relation (h : catalog.Accepted) {model : Model} (hmem : model ∈ catalog.models)
    {relation : Relation} (hrelation : relation ∈ model.relations) :
    model.hasColumn relation.localKey = true ∧
      ∃ target, catalog.model? relation.model = some target ∧
        target.hasColumn relation.referencedKey = true := by
  refine checkRelation_iff.1 (checkRelations_iff.1 (build_iff.1 h).2 (model, relation) ?_)
  exact List.mem_flatMap.2 ⟨model, hmem, List.mem_map_of_mem hrelation⟩

end Accepted

/-! ## Links -/

/-- A link is a relation of the child, or one of the parent read backwards. -/
theorem link?_eq_some {child parent : Model} {link : Link} (h : child.link? parent = some link) :
    (∃ relation ∈ child.relations, relation.model = parent.name ∧
      link = ⟨relation.localKey, relation.model, relation.referencedKey, false⟩) ∨
    ∃ relation ∈ parent.relations, relation.model = child.name ∧
      link = ⟨relation.referencedKey, parent.name, relation.localKey, true⟩ := by
  unfold Model.link? at h
  split at h
  · next relation hrelation =>
    obtain rfl := Option.some.inj h
    exact Or.inl ⟨relation, List.mem_of_find?_eq_some hrelation,
      by simpa using List.find?_some hrelation, rfl⟩
  · obtain ⟨relation, hrelation, rfl⟩ := Option.map_eq_some_iff.1 h
    exact Or.inr ⟨relation, List.mem_of_find?_eq_some hrelation,
      by simpa using List.find?_some hrelation, rfl⟩

/-- In an accepted catalog a link joins a column of the child to a column of the parent. -/
theorem Accepted.link_columns {catalog : Catalog} (h : catalog.Accepted) {child parent : Model}
    (hchild : child ∈ catalog.models) (hparent : parent ∈ catalog.models) {link : Link}
    (hlink : child.link? parent = some link) :
    child.hasColumn link.localKey = true ∧ parent.hasColumn link.referencedKey = true := by
  rcases link?_eq_some hlink with ⟨relation, hrelation, hname, rfl⟩ | ⟨relation, hrelation, hname, rfl⟩
  · obtain ⟨hlocal, target, htarget, hreferenced⟩ := h.relation hchild hrelation
    rw [hname, h.model?_name hparent] at htarget
    obtain rfl := Option.some.inj htarget
    exact ⟨hlocal, hreferenced⟩
  · obtain ⟨hlocal, target, htarget, hreferenced⟩ := h.relation hparent hrelation
    rw [hname, h.model?_name hchild] at htarget
    obtain rfl := Option.some.inj htarget
    exact ⟨hreferenced, hlocal⟩

end Catalog

/-! ## A library

A small catalog to try things on: books refer to their authors, and both tables are in memory.
-/

namespace Library

/-- Authors, named by number. -/
def author : Model where
  name := "author"
  groupName := "authors"
  columns := [{ key := "id", type := .number, isPrimary := true }, { key := "name", type := .string }]
  executor := "memory"

/-- Books, each with the number of its author. -/
def book : Model where
  name := "book"
  groupName := "books"
  columns := [{ key := "id", type := .number, isPrimary := true }, { key := "title", type := .string },
    { key := "author_id", type := .number, isForeign := true }]
  relations := [⟨"author_id", "author", "id"⟩]
  executor := "memory"

/-- The catalog of the two. -/
def catalog : Catalog :=
  ((Catalog.empty {}).enter author ⟨by decide, by decide, by decide⟩).enter book
    ⟨by decide, by decide, by decide⟩

theorem accepted : catalog.Accepted := rfl

@[simp] theorem models_catalog : catalog.models = [author, book] := rfl

end Library

end NestedQuery
