import Mathlib.Data.List.Nodup
import Mathlib.Data.Option.Basic
import NestedQuery.Proofs.Json.Distinct
import NestedQuery.Proofs.Plan.Compiled
import NestedQuery.Proofs.Schema.Accepted
/-!
# How the tasks of a plan fit together

What a task has from the place where it stands: its parent's path, its
part in the parent's batch, and the link by which it joins the parent.
`Branch.Fits` says this of a whole forest, each task seen from the one
it is nested in, together with the count that a task keeps of what is
nested in it. A second reading of the derivation, `Branch.Apart`, says
that siblings differ in the first segment of their paths; it is the only
one for which the keys of the request must be distinct.
-/

namespace NestedQuery

/-! ## What a node opens with -/

/-- How a task joins the task it is nested in: by a link between the models of the two, on columns
that both index. -/
def Task.Joins (catalog : Catalog) (task parent : Task) (link : Link) : Prop :=
  task.link = some link ∧ link.localKey ∈ task.joinColumns ∧
    link.referencedKey ∈ parent.joinColumns ∧
    ∃ child ∈ catalog.models, ∃ host ∈ catalog.models,
      child.name = task.model ∧ host.name = parent.model ∧ child.link? host = some link

/-- What a task has from where it stands: below a parent, or at the top. -/
structure Task.Below (catalog : Catalog) (parent : Option Task) (task : Task) : Prop where
  parentKeys : task.path.parentKeys = (parent.map fun p => p.path.full).getD []
  keys : task.path.keys ≠ []
  isNested : task.isNested = parent.isSome
  underBatch : task.batch.underBatch = (parent.map fun p => p.batch.isBatch).getD false
  isBatch : task.batch.isBatch = (task.batch.isGroup || task.batch.underBatch)
  link : match parent with
    | none => task.link = none
    | some parent => ∃ link, task.Joins catalog parent link

theorem Task.full_ne_nil {task : Task} (h : task.path.keys ≠ []) : task.path.full ≠ [] := by
  rw [NodePath.full]
  exact fun heq => h (List.append_eq_nil_iff.1 heq).2

/-- The path of a task goes on from that of the task that it stands below. -/
theorem Task.Below.full_eq {catalog : Catalog} {task parent : Task}
    (h : task.Below catalog (some parent)) :
    task.path.full = parent.path.full ++ task.path.keys := by
  rw [NodePath.full, h.parentKeys]
  rfl

/-- A task indexes the column by which it joins its host. -/
theorem Task.Below.localKey_mem {catalog : Catalog} {parent : Option Task} {task : Task}
    (h : task.Below catalog parent) : ∀ link ∈ task.link, link.localKey ∈ task.joinColumns := by
  intro link hlink
  cases parent with
  | none => exact absurd (h.link.symm.trans hlink) (Option.some_ne_none link).symm
  | some parent =>
    obtain ⟨found, hfound, hlocal, -⟩ := h.link
    obtain rfl := Option.some.inj (hfound.symm.trans hlink)
    exact hlocal

theorem Task.Below.full_start {catalog : Catalog} {task parent : Task}
    (h : task.Below catalog (some parent)) : parent.path.full <+: task.path.full :=
  h.full_eq ▸ List.prefix_append _ _

namespace Catalog

variable {catalog : Catalog}

theorem mem_of_resolve? {name : String} {resolved : Resolved}
    (h : catalog.resolve? name = some resolved) : resolved.model ∈ catalog.models :=
  (resolve?_eq_some h).1

theorem mem_of_resolveNode {key : String} {value : Json} {resolved : Resolved}
    (h : catalog.resolveNode key value = .ok resolved) : resolved.model ∈ catalog.models := by
  unfold resolveNode at h
  split at h
  · split at h
    · next found hfound =>
      obtain rfl := Except.ok.inj h
      exact mem_of_resolve? hfound
    · cases h
  · split at h
    · next found hfound =>
      obtain rfl := Except.ok.inj h
      exact mem_of_resolve? hfound
    · cases h
  · cases h

theorem resolveNested_ok {parent : Model} {key : String} {value : Json} {child : Resolved}
    {link : Link} (h : catalog.resolveNested parent key value = .ok (child, link)) :
    child.model ∈ catalog.models ∧ child.model.link? parent = some link := by
  unfold resolveNested at h
  split at h
  · cases h
  · next found hfound =>
    split at h
    · next other hlink =>
      obtain ⟨rfl, rfl⟩ := Prod.mk.inj (Except.ok.inj h)
      exact ⟨mem_of_resolveNode hfound, hlink⟩
    · cases h

/-- **What a node opens with.** The model is of the catalog, the task is fresh: nothing in the node
was read yet. -/
theorem opens_ok {parent : Option (Model × Task)} {key : String} {value : Json} {model : Model}
    {start : Task} (h : catalog.opens parent key value = .ok (model, start)) :
    model ∈ catalog.models ∧
      ∃ resolved link, resolved.model = model ∧
        start = Task.start resolved key (parent.map Prod.snd) link ∧
        match parent with
        | none => link = none
        | some home => ∃ l, link = some l ∧ model.link? home.1 = some l := by
  cases parent with
  | none =>
    cases hres : catalog.resolveNode key value with
    | error fault => simp [opens, hres] at h
    | ok resolved =>
      simp only [opens, hres, Except.ok.injEq, Prod.mk.injEq] at h
      obtain ⟨rfl, rfl⟩ := h
      exact ⟨mem_of_resolveNode hres, resolved, none, rfl, rfl, rfl⟩
  | some home =>
    cases hres : catalog.resolveNested home.1 key value with
    | error fault => simp [opens, hres] at h
    | ok pair =>
      obtain ⟨child, link⟩ := pair
      simp only [opens, hres, Except.ok.injEq, Prod.mk.injEq] at h
      obtain ⟨rfl, rfl⟩ := h
      obtain ⟨hmem, hlink⟩ := resolveNested_ok hres
      exact ⟨hmem, child, some link, rfl, rfl, link, rfl, hlink⟩

end Catalog

namespace Task

variable {catalog : Catalog}

/-! ### A fresh task -/

section

variable (resolved : Resolved) (key : String) (parent : Option Task) (link : Option Link)

@[simp] theorem start_model : (start resolved key parent link).model = resolved.model.name := by
  cases link <;> simp [start]

theorem start_served : (start resolved key parent link).parser = resolved.model.parser ∧
    (start resolved key parent link).executor = resolved.model.executor := by
  cases link <;> simp [start]

@[simp] theorem start_path : (start resolved key parent link).path =
    ⟨[key], (parent.map fun p => p.path.full).getD []⟩ := by
  cases link <;> simp [start]

@[simp] theorem start_batch : (start resolved key parent link).batch =
    ⟨resolved.isGroup, (parent.map fun p => p.batch.isBatch).getD false,
      resolved.isGroup || (parent.map fun p => p.batch.isBatch).getD false⟩ := by
  cases link <;> simp [start]

@[simp] theorem start_isNested : (start resolved key parent link).isNested = parent.isSome := by
  cases link <;> simp [start]

@[simp] theorem start_errors : (start resolved key parent link).errors = [] := by
  cases link <;> simp [start]

theorem localKey_mem_start (l : Link) :
    l.localKey ∈ (start resolved key parent (some l)).joinColumns :=
  mem_addJoinColumn _ _

end

/-- A task made of a fresh one stands where the fresh one stood. The parent counts as the widened
one, which has the columns that the task joins to. -/
theorem Extends.below {parent : Option (Model × Task)} {key : String} {value : Json}
    {model : Model} {start task : Task} (h : task.Extends start)
    (hopens : catalog.opens parent key value = .ok (model, start))
    (hparent : ∀ home p, parent = some (home, p) → home ∈ catalog.models ∧ p.model = home.name ∧
      ∀ link, task.link = some link → link.referencedKey ∈ p.joinColumns) :
    task.Below catalog (parent.map Prod.snd) := by
  obtain ⟨hmem, resolved, link, rfl, rfl, hlink⟩ := Catalog.opens_ok hopens
  refine ⟨?_, ?_, ?_, ?_, ?_, ?_⟩
  · rw [h.parentKeys, start_path]
  · obtain ⟨more, hkeys⟩ := h.keys
    rw [← hkeys]
    simp
  · rw [h.isNested, start_isNested]
  · rw [h.batch, start_batch]
  · rw [h.batch, start_batch]
  · cases parent with
    | none => exact h.link.trans ((start_link ..).trans hlink)
    | some home =>
      obtain ⟨l, rfl, hl⟩ := hlink
      obtain ⟨hhome, hname, hcolumn⟩ := hparent home.1 home.2 rfl
      have htask : task.link = some l := h.link.trans (start_link ..)
      refine ⟨l, htask, h.joinColumns (localKey_mem_start _ _ _ l), hcolumn l htask,
        resolved.model, hmem, home.1, hhome, ?_, hname.symm, hl⟩
      rw [h.model, start_model]

end Task

/-! ## Forests that fit -/

namespace Branch

/-- Each task of a forest stands below the one it is nested in, and counts what is nested in it. -/
inductive Fits (catalog : Catalog) : Option Task → List Branch → Prop where
  | nil {parent : Option Task} : Fits catalog parent []
  | node {parent : Option Task} {task : Task} {nested rest : List Branch} :
      task.Below catalog parent → task.childCount = (tasksOf nested).length →
      Fits catalog (some task) nested → Fits catalog parent rest →
      Fits catalog parent (.node task nested :: rest)

variable {catalog : Catalog}

/-- Tasks that fit below a parent fit below another one of the same place and columns. -/
theorem Fits.congr_parent {parent parent' : Task} {branches : List Branch}
    (h : Fits catalog (some parent) branches) (hmodel : parent'.model = parent.model)
    (hpath : parent'.path = parent.path) (hbatch : parent'.batch = parent.batch)
    (hcolumns : parent'.joinColumns = parent.joinColumns) :
    Fits catalog (some parent') branches := by
  generalize hp : some parent = p at h
  induction h with
  | nil => exact .nil
  | node hbelow hcount hnested _ _ ih =>
    subst hp
    refine .node ⟨?_, hbelow.keys, hbelow.isNested, ?_, hbelow.isBatch, ?_⟩ hcount hnested (ih rfl)
    · simpa [hpath] using hbelow.parentKeys
    · simpa [hbatch] using hbelow.underBatch
    · obtain ⟨link, hlink, hlocal, hreferenced, hmodels⟩ := hbelow.link
      exact ⟨link, hlink, hlocal, hcolumns ▸ hreferenced, hmodel ▸ hmodels⟩

/-- A branch that failed fits if its task stands. -/
theorem Fits.fail {parent : Option Task} {task : Task} {fault : Fault} {rest : List Branch}
    (hbelow : task.Below catalog parent) (hrest : Fits catalog parent rest) :
    Fits catalog parent ((Branch.fail task fault).1 :: rest) :=
  .node ⟨hbelow.parentKeys, hbelow.keys, hbelow.isNested, hbelow.underBatch, hbelow.isBatch,
    hbelow.link⟩ (by simp) .nil hrest

theorem Fits.grow {parent : Option Task} {task : Task} {nested rest : List Branch}
    (hbelow : task.Below catalog parent) (hnested : Fits catalog (some task) nested)
    (hrest : Fits catalog parent rest) :
    Fits catalog parent (.grow task.addJoinFields nested :: rest) :=
  .node ⟨hbelow.parentKeys, hbelow.keys, hbelow.isNested, hbelow.underBatch, hbelow.isBatch,
    hbelow.link⟩ rfl (hnested.congr_parent rfl rfl rfl rfl) hrest

theorem Fits.of_append {parent : Option Task} {first last : List Branch}
    (h : Fits catalog parent (first ++ last)) :
    Fits catalog parent first ∧ Fits catalog parent last := by
  induction first with
  | nil => exact ⟨.nil, h⟩
  | cons branch rest ih =>
    cases h with
    | node hbelow hcount hnested hrest =>
      exact ⟨.node hbelow hcount hnested (ih hrest).1, (ih hrest).2⟩

end Branch

namespace Catalog

variable {catalog : Catalog}

theorem Compiles.fits {parent : Option (Model × Task)} {nodes : Record} {branches : List Branch}
    {reports : List String} (h : catalog.Compiles parent nodes branches reports)
    (hparent : ∀ home p, parent = some (home, p) → home ∈ catalog.models ∧ p.model = home.name ∧
      ∀ branch ∈ branches, ∀ link, branch.root.link = some link →
        link.referencedKey ∈ p.joinColumns) :
    Branch.Fits catalog (parent.map Prod.snd) branches := by
  -- the parent of a node and of the nodes behind it is the same
  have hhead : ∀ {parent : Option (Model × Task)} {branch : Branch} {rest : List Branch},
      (∀ home p, parent = some (home, p) → home ∈ catalog.models ∧ p.model = home.name ∧
        ∀ b ∈ branch :: rest, ∀ link, b.root.link = some link →
          link.referencedKey ∈ p.joinColumns) →
      (∀ home p, parent = some (home, p) → home ∈ catalog.models ∧ p.model = home.name ∧
        ∀ link, branch.root.link = some link → link.referencedKey ∈ p.joinColumns) ∧
      ∀ home p, parent = some (home, p) → home ∈ catalog.models ∧ p.model = home.name ∧
        ∀ b ∈ rest, ∀ link, b.root.link = some link → link.referencedKey ∈ p.joinColumns := by
    intro parent branch rest h
    refine ⟨fun home p hp => ?_, fun home p hp => ?_⟩ <;> obtain ⟨hmem, hname, hcols⟩ := h home p hp
    · exact ⟨hmem, hname, hcols branch (List.mem_cons_self ..)⟩
    · exact ⟨hmem, hname, fun b hb => hcols b (List.mem_cons_of_mem _ hb)⟩
  induction h with
  | nil => exact .nil
  | unresolved hres _ ih =>
    exact .node ⟨rfl, by simp [Task.unresolved], rfl, rfl, rfl, rfl⟩ (by simp [Task.unresolved]) .nil
      (ih (hhead hparent).2)
  | refused hopens hvalue _ ih =>
    exact .fail ((Task.Extends.refl _).below hopens (hhead hparent).1) (ih (hhead hparent).2)
  | @misruled _ _ _ model start task fields _ _ _ _ hopens hvalue hrules _ ih =>
    have hext : task.Extends start := by
      simpa [hrules] using catalog.applyRules_extends model start fields
    exact .fail (hext.below hopens (hhead hparent).1) (ih (hhead hparent).2)
  | @broken _ _ _ _ _ model start ruled fields _ _ _ _ lost _ _ _ hopens hvalue hrules hfields _ _ _
      _ ih =>
    have hext : ruled.Extends start := by
      simpa [hrules] using catalog.applyRules_extends model start fields
    exact .fail (((Branch.widen_extends ruled lost).trans hext).below hopens (hhead hparent).1)
      (ih (hhead hparent).2)
  | @grown _ _ _ model start ruled fields _ nested _ _ _ hopens hvalue hrules _ _ ihnested ih =>
    have hext : (Branch.widen ruled nested).Extends start := by
      refine (Branch.widen_extends ruled nested).trans ?_
      simpa [hrules] using catalog.applyRules_extends model start fields
    refine .grow (hext.below hopens (hhead hparent).1) (ihnested ?_) (ih (hhead hparent).2)
    intro home p hp
    obtain ⟨rfl, rfl⟩ := Prod.mk.inj (Option.some.inj hp)
    obtain ⟨hmem, resolved, link, hresolved, hstart, -⟩ := opens_ok hopens
    refine ⟨hmem, ?_, fun branch hbranch link hlink => Branch.mem_widen hbranch hlink⟩
    rw [hext.model, hstart, Task.start_model, hresolved]

/-- **The tasks of a request fit together.** -/
theorem fits_forest (catalog : Catalog) (request : Record) :
    Branch.Fits catalog none (catalog.forest request) := by
  have h := (compiles_forest catalog request).fits (fun home p hp => by cases hp)
  exact h

end Catalog

/-! ## Siblings -/

theorem Json.distinct_nodeFields {value : Json} {fields : Record}
    (h : value.nodeFields? = some fields) (hvalue : value.Distinct) : (obj fields).Distinct := by
  cases value with
  | obj inner =>
    obtain rfl := Option.some.inj h
    exact hvalue
  | bool b =>
    cases b with
    | true =>
      obtain rfl := Option.some.inj h
      simp [distinct_obj_iff, Keyed.keys]
    | false => cases h
  | _ => cases h

/-- The first segment of a branch below its parent. -/
def Branch.segment? (branch : Branch) : Option String := branch.root.path.keys.head?

/-- Siblings differ in their first segments, at the top and in every branch. -/
inductive Branch.Apart : List Branch → Prop where
  | nil : Apart []
  | node {task : Task} {nested rest : List Branch} :
      (∀ branch ∈ rest, branch.segment? ≠ task.path.keys.head?) →
      Apart nested → Apart rest → Apart (.node task nested :: rest)

theorem Branch.Apart.of_append {first last : List Branch} (h : Apart (first ++ last)) :
    Apart first ∧ Apart last := by
  induction first with
  | nil => exact ⟨.nil, h⟩
  | cons branch rest ih =>
    cases h with
    | node hsegment hnested hrest =>
      exact ⟨.node (fun other hother => hsegment other (List.mem_append_left _ hother)) hnested
        (ih hrest).1, (ih hrest).2⟩

namespace Catalog

variable {catalog : Catalog}

/-- A task made of the one that a node opens with has the key of the node first. -/
theorem head?_of_opens {parent : Option (Model × Task)} {key : String} {value : Json}
    {model : Model} {start task : Task}
    (hopens : catalog.opens parent key value = .ok (model, start)) (h : task.Extends start) :
    task.path.keys.head? = some key := by
  obtain ⟨-, resolved, link, -, rfl, -⟩ := opens_ok hopens
  obtain ⟨more, hkeys⟩ := h.keys
  rw [← hkeys]
  simp

/-- There is one branch for each node, in order, and the key of the node is its first segment. -/
theorem Compiles.segments {parent : Option (Model × Task)} {nodes : Record}
    {branches : List Branch} {reports : List String}
    (h : catalog.Compiles parent nodes branches reports) :
    branches.map Branch.segment? = (Keyed.keys nodes).map some := by
  induction h with
  | nil => rfl
  | unresolved _ _ ih => simpa [Keyed.keys, Branch.segment?, Task.unresolved] using ih
  | refused hopens _ _ ih =>
    have hhead := head?_of_opens hopens (.refl _)
    simpa [Keyed.keys, Branch.segment?, Branch.fail, hhead] using ih
  | @misruled _ _ _ model start task fields _ _ _ _ hopens _ hrules _ ih =>
    have hext := catalog.applyRules_extends model start fields
    rw [hrules] at hext
    have hhead := head?_of_opens hopens hext
    simpa [Keyed.keys, Branch.segment?, Branch.fail, hhead] using ih
  | @broken _ _ _ _ _ model start ruled fields _ _ _ _ lost _ _ _ hopens _ hrules _ _ _ _ _ ih =>
    have hext := catalog.applyRules_extends model start fields
    rw [hrules] at hext
    have hhead := head?_of_opens hopens hext
    simpa [Keyed.keys, Branch.segment?, Branch.fail, hhead] using ih
  | @grown _ _ _ model start ruled fields _ nested _ _ _ hopens _ hrules _ _ _ ih =>
    have hext := catalog.applyRules_extends model start fields
    rw [hrules] at hext
    have hhead := head?_of_opens hopens hext
    simpa [Keyed.keys, Branch.segment?, Branch.grow, Task.addJoinFields, hhead] using ih

/-- A branch whose path begins with a key is that of a node under the key. -/
theorem Compiles.mem_keys {parent : Option (Model × Task)} {nodes : Record}
    {branches : List Branch} {reports : List String}
    (h : catalog.Compiles parent nodes branches reports) {branch : Branch} {key : String}
    (hmem : branch ∈ branches) (hkey : branch.segment? = some key) : key ∈ Keyed.keys nodes := by
  have hsegment : some key ∈ branches.map Branch.segment? := hkey ▸ List.mem_map_of_mem hmem
  rw [h.segments] at hsegment
  obtain ⟨_, hkeys, heq⟩ := List.mem_map.1 hsegment
  exact Option.some.inj heq ▸ hkeys

/-- Where no key is repeated, a branch differs from those behind it. -/
theorem Compiles.segment_ne {parent : Option (Model × Task)} {nodes : Record} {branch : Branch}
    {rest : List Branch} {reports : List String}
    (h : catalog.Compiles parent nodes (branch :: rest) reports)
    (hnodes : (Json.obj nodes).Distinct) :
    ∀ other ∈ rest, other.segment? ≠ branch.segment? := by
  have hnodup : ((branch :: rest).map Branch.segment?).Nodup := by
    rw [h.segments]
    exact ((Json.distinct_obj_iff _).1 hnodes).1.map (Option.some_injective _)
  rw [List.map_cons, List.nodup_cons] at hnodup
  intro other hother heq
  exact hnodup.1 (heq ▸ List.mem_map_of_mem hother)

theorem Compiles.apart {parent : Option (Model × Task)} {nodes : Record} {branches : List Branch}
    {reports : List String} (h : catalog.Compiles parent nodes branches reports)
    (hnodes : (Json.obj nodes).Distinct) : Branch.Apart branches := by
  induction h with
  | nil => exact .nil
  | unresolved hres hrest ih =>
    exact .node ((hrest.unresolved hres).segment_ne hnodes) .nil
      (ih (hnodes.sublist (List.sublist_cons_self ..)))
  | refused hopens hvalue hrest ih =>
    exact .node ((hrest.refused hopens hvalue).segment_ne hnodes) .nil
      (ih (hnodes.sublist (List.sublist_cons_self ..)))
  | misruled hopens hvalue hrules hrest ih =>
    exact .node ((hrest.misruled hopens hvalue hrules).segment_ne hnodes) .nil
      (ih (hnodes.sublist (List.sublist_cons_self ..)))
  | broken hopens hvalue hrules hfields hlost hfault hrest _ ih =>
    exact .node ((Compiles.broken hopens hvalue hrules hfields hlost hfault hrest).segment_ne hnodes)
      .nil (ih (hnodes.sublist (List.sublist_cons_self ..)))
  | @grown _ key value model start ruled fields _ nested _ _ _ hopens hvalue hrules hnested hrest
      ihnested ih =>
    refine .node ((Compiles.grown hopens hvalue hrules hnested hrest).segment_ne hnodes)
      (ihnested ?_) (ih (hnodes.sublist (List.sublist_cons_self ..)))
    have hdistinct := ((Json.distinct_obj_iff _).1 hnodes).2 _ (List.mem_cons_self ..)
    exact (Json.distinct_nodeFields hvalue hdistinct).sublist List.filter_sublist

/-- **Siblings differ** in the plan of a request without repeated keys. -/
theorem apart_forest (catalog : Catalog) {request : Record} (h : (Json.obj request).Distinct) :
    Branch.Apart (catalog.forest request) := by
  have hcompiles := compiles_forest catalog request
  exact hcompiles.apart h

end Catalog

end NestedQuery
