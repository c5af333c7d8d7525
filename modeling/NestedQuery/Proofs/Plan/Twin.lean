import NestedQuery.Proofs.Plan.Determined
import NestedQuery.Proofs.Plan.Written
import NestedQuery.Proofs.Schema.Accepted
/-!
# One node under two names

A model answers to two names, and the same node may stand under either:
for one record, or for a list. What it compiles to is the same but for
where the tasks stand and how many records they are about
(`Catalog.Compiles.twins`). Only a list as the constraint on a column is
read differently under the two names, and in a node for one record it is
a fault; so what compiles for one record compiles for a list.
-/

namespace NestedQuery

/-! ## Twins -/

namespace Task

/-- A task that differs from another one in where it stands and in how many records it is about. -/
def Twin (task other : Task) : Prop := ∃ kind path batch, other = { task with kind, path, batch }

/-- A twin that has the same segments of its own, and stands for a list if the other one does. -/
structure NestedTwin (task other : Task) : Prop where
  twin : task.Twin other
  keys : other.path.keys = task.path.keys
  isGroup : other.batch.isGroup = task.batch.isGroup

section

variable {task other : Task}

theorem Twin.addJoinColumn (h : task.Twin other) (column : String) :
    (task.addJoinColumn column).Twin (other.addJoinColumn column) := by
  obtain ⟨kind, path, batch, rfl⟩ := h
  unfold Task.addJoinColumn
  split
  · exact ⟨kind, path, batch, rfl⟩
  · exact ⟨kind, path, batch, rfl⟩

/-- Whoever has the model and the link of a fresh task has a twin of it. -/
theorem twin_start {resolved resolved' : Resolved} (hmodel : resolved'.model = resolved.model)
    {key key' : String} {parent parent' : Option Task} (hparent : parent'.isSome = parent.isSome)
    (link : Option Link) : (start resolved key parent link).Twin (start resolved' key' parent' link) := by
  have hbare : (start resolved key parent none).Twin (start resolved' key' parent' none) :=
    ⟨(start resolved' key' parent' none).kind, (start resolved' key' parent' none).path,
      (start resolved' key' parent' none).batch, by simp only [start, hmodel, hparent]⟩
  cases link with
  | none => exact hbare
  | some link =>
    obtain ⟨kind, path, batch, heq⟩ := hbare.addJoinColumn link.localKey
    refine ⟨kind, path, batch, ?_⟩
    show { (start resolved' key' parent' none).addJoinColumn link.localKey with
      link := some link, filter := some .empty } = _
    rw [heq]
    rfl

end

end Task

/-- Branch by branch, a forest has twins of the tasks of another one. -/
inductive Branch.Twins : List Branch → List Branch → Prop where
  | nil : Twins [] []
  | node {task other : Task} {nested nested' rest rest' : List Branch} :
      task.NestedTwin other → Twins nested nested' → Twins rest rest' →
      Twins (.node task nested :: rest) (.node other nested' :: rest')

namespace Branch.Twins

variable {branches branches' : List Branch}

theorem length_tasksOf (h : Twins branches branches') :
    (tasksOf branches').length = (tasksOf branches).length := by
  induction h with
  | nil => rfl
  | node _ _ _ ihnested ih =>
    simp only [tasksOf_node, List.length_cons, List.length_append, ihnested, ih]

/-- Twins join to the same columns. -/
theorem widen (h : Twins branches branches') {task other : Task} (htwin : task.Twin other) :
    (Branch.widen task branches).Twin (Branch.widen other branches') := by
  induction h generalizing task other with
  | nil => exact htwin
  | @node child child' _ _ _ _ hchild _ _ _ ih =>
    have hlink : child'.link = child.link := by
      obtain ⟨kind, path, batch, rfl⟩ := hchild.twin
      rfl
    rw [Branch.widen, Branch.widen, root_node, root_node, hlink]
    cases child.link with
    | none => exact ih htwin
    | some link => exact ih (htwin.addJoinColumn _)

end Branch.Twins

namespace Branch.Twins

variable {branches branches' : List Branch}

/-- Every task of the other forest is a twin. -/
theorem exists_twin (h : Twins branches branches') {other : Task} (hmem : other ∈ tasksOf branches') :
    ∃ task ∈ tasksOf branches, task.Twin other := by
  induction h with
  | nil => simp at hmem
  | node htwin _ _ ihnested ih =>
    simp only [tasksOf_node, List.mem_cons, List.mem_append] at hmem ⊢
    rcases hmem with rfl | hmem | hmem
    · exact ⟨_, Or.inl rfl, htwin.twin⟩
    · obtain ⟨task, hmem, htwin⟩ := ihnested hmem
      exact ⟨task, Or.inr (Or.inl hmem), htwin⟩
    · obtain ⟨task, hmem, htwin⟩ := ih hmem
      exact ⟨task, Or.inr (Or.inr hmem), htwin⟩

end Branch.Twins

/-! ## Rules -/

/-- What one record takes as a constraint is no list, so it is read the same for a group. -/
theorem ColumnType.read?_of_single {type : ColumnType} {isGroup : Bool} {written : Json}
    {constraint : Constraint} (h : type.read? false written = some constraint) :
    type.read? isGroup written = type.read? false written := by
  cases written with
  | arr items => cases type <;> cases h
  | _ => cases isGroup <;> rfl

namespace Rule

/-- What a rule makes of a task it makes of the twins, unless a list is at fault for one record. -/
theorem apply_twin {rule : Rule} {model : Model} {settings : Settings} {key : String} {value : Json}
    {task task' other : Task} (h : rule.applyTo model settings key value task = (task', none))
    (htwin : task.Twin other)
    (hgroup : task.batch.isGroup = false ∨ other.batch.isGroup = task.batch.isGroup) :
    ∃ other', rule.applyTo model settings key value other = (other', none) ∧ task'.Twin other' ∧
      (other.path.keys = task.path.keys → other'.path.keys = task'.path.keys) := by
  obtain ⟨kind, path, batch, rfl⟩ := htwin
  cases rule with
  | model =>
    obtain rfl : task = task' := (Prod.mk.inj h).1
    exact ⟨_, rfl, ⟨kind, path, batch, rfl⟩, id⟩
  | field =>
    obtain ⟨spec, listed, rfl, hentries, hread, rfl⟩ := applyField_ok h
    refine ⟨{ task with kind, path, batch, fields := some (withSpecial model listed) }, ?_,
      ⟨kind, path, batch, rfl⟩, id⟩
    simp only [applyTo, applyField, hread]
  | sort =>
    cases value with
    | str spec =>
      obtain rfl := (Prod.mk.inj h).1
      exact ⟨_, rfl, ⟨kind, path, batch, rfl⟩, id⟩
    | _ => cases h
  | pagination =>
    obtain ⟨page, hpage, rfl⟩ := applyPagination_ok h
    refine ⟨{ task with kind, batch, path := pagedPath settings.pagination page path, page := some page },
      by simp only [applyTo, applyPagination, hpage], ⟨kind, _, batch, rfl⟩, fun hkeys => ?_⟩
    show (pagedPath settings.pagination page path).keys =
      (pagedPath settings.pagination page task.path).keys
    have hkeys : path.keys = task.path.keys := hkeys
    unfold pagedPath
    rw [hkeys]
    split
    · rfl
    · exact hkeys
  | column type =>
    obtain ⟨constraint, hread, rfl⟩ := applyColumn_read h
    have hread' : type.read? batch.isGroup value = some constraint := by
      rcases hgroup with hsingle | hsame
      · rw [hsingle] at hread
        rw [ColumnType.read?_of_single hread]
        exact hread
      · have hsame : batch.isGroup = task.batch.isGroup := hsame
        rw [hsame]
        exact hread
    refine ⟨{ task with kind, path, batch }.constrain key constraint, ?_, ⟨kind, path, batch, rfl⟩, id⟩
    rw [applyTo, applyColumn_eq]
    simp only [hread']

end Rule

namespace Catalog

variable {catalog : Catalog}

/-- The rules of a node that pass for a task pass for its twins. -/
theorem applyRules_twin {model : Model} {task ruled other : Task} {fields : Record}
    (h : catalog.applyRules model task fields = (ruled, none)) (htwin : task.Twin other)
    (hgroup : task.batch.isGroup = false ∨ other.batch.isGroup = task.batch.isGroup) :
    ∃ ruled', catalog.applyRules model other fields = (ruled', none) ∧ ruled.Twin ruled' ∧
      (other.path.keys = task.path.keys → ruled'.path.keys = ruled.path.keys) := by
  fun_induction applyRules catalog model task fields generalizing other with
  | case1 task =>
    obtain ⟨rfl, -⟩ := Prod.mk.inj h
    exact ⟨other, rfl, htwin, id⟩
  | case2 => cases (Prod.mk.inj h).2
  | case3 task key value rest hnull hrule ih =>
    obtain ⟨ruled', hrules, hruled, hkeys⟩ := ih h htwin hgroup
    refine ⟨ruled', ?_, hruled, hkeys⟩
    rw [applyRules, if_neg hnull, hrule]
    exact hrules
  | case4 => cases (Prod.mk.inj h).2
  | case5 task key value rest hnull rule hrule task' happly ih =>
    obtain ⟨other', happly', htwin', hkeys'⟩ := Rule.apply_twin happly htwin hgroup
    have hbatch := (Rule.apply_extends happly).batch
    have hbatch' := (Rule.apply_extends happly').batch
    obtain ⟨ruled', hrules, hruled, hkeys⟩ := ih h htwin' (by rw [hbatch, hbatch']; exact hgroup)
    refine ⟨ruled', ?_, hruled, fun heq => hkeys (hkeys' heq)⟩
    rw [applyRules, if_neg hnull, hrule]
    simp only [happly']
    exact hrules

/-! ## Nodes -/

/-- A nested node has a model below any parent of the same model. -/
theorem opens_nested {model : Model} {parent : Task} {key : String} {value : Json} {child : Model}
    {start : Task} (h : catalog.opens (some (model, parent)) key value = .ok (child, start))
    (parent' : Task) :
    ∃ start', catalog.opens (some (model, parent')) key value = .ok (child, start') ∧
      start.NestedTwin start' := by
  cases hresolved : catalog.resolveNested model key value with
  | error fault => simp [opens, hresolved] at h
  | ok pair =>
    obtain ⟨resolved, link⟩ := pair
    simp only [opens, hresolved, Except.ok.injEq, Prod.mk.injEq] at h ⊢
    obtain ⟨rfl, rfl⟩ := h
    have htwin : (Task.start resolved key (some parent) (some link)).Twin
        (Task.start resolved key (some parent') (some link)) := Task.twin_start (by rfl) (by rfl) _
    refine ⟨_, ⟨rfl, rfl⟩, htwin, ?_, ?_⟩
    · rw [Task.start_path, Task.start_path]
    · rw [Task.start_batch, Task.start_batch]

section

variable {home' : Option (Model × Task)} {key' : String} {value : Json} {model : Model}
  {start start' ruled : Task} {fields rest : Record} {nested branches : List Branch}
  {reports : List String}

/-- **One node, compiled twice.** If nothing in it is reported the first time, and what is nested in
it has twins, then the node has a twin the second time. -/
theorem Compiles.twin_node (hopens' : catalog.opens home' key' value = .ok (model, start'))
    (htwin : start.Twin start')
    (hgroup : start.batch.isGroup = false ∨ start'.batch.isGroup = start.batch.isGroup)
    (hfields : value.nodeFields? = some fields)
    (hrules : catalog.applyRules model start fields = (ruled, none)) {reported : List String}
    (hnested : catalog.Compiles (some (model, Branch.widen ruled nested))
      (catalog.nestedFields model fields) nested reported)
    (ih : ∀ parent branches' reports', catalog.Compiles (some (model, parent))
      (catalog.nestedFields model fields) branches' reports' →
      reports' = [] ∧ Branch.Twins nested branches')
    (h : catalog.Compiles home' ((key', value) :: rest) branches reports) :
    ∃ other nested' branches', branches = .node other nested' :: branches' ∧
      Task.Twin { (Branch.widen ruled nested).addJoinFields with
        childCount := (Branch.tasksOf nested).length } other ∧
      other.batch = start'.batch ∧ (start'.path.keys = start.path.keys →
        other.path.keys = (Branch.widen ruled nested).path.keys) ∧
      Branch.Twins nested nested' ∧ catalog.Compiles home' rest branches' reports := by
  obtain ⟨ruled', hrules', hruled, hkeys⟩ := applyRules_twin hrules htwin hgroup
  have hextends := applyRules_extends catalog model start' fields
  rw [hrules'] at hextends
  obtain ⟨branch, branches', own, more, rfl, rfl, hnode, hrest⟩ := h.split_cons
  rcases hnode.of_ruled hopens' hfields hrules' with ⟨nested', hbranch, hinner⟩ |
    ⟨_, name, inner, _, fault, _, _, hsplit, hfault, _⟩
  · obtain rfl := List.singleton_inj.1 hbranch
    obtain ⟨rfl, htwins⟩ := ih _ _ _ hinner
    obtain ⟨kind, path, batch, heq⟩ := htwins.widen hruled
    refine ⟨_, nested', branches', rfl, ⟨kind, path, batch, ?_⟩, ?_, fun hsame => ?_, htwins, hrest⟩
    · rw [htwins.length_tasksOf, heq]
      rfl
    · show (Branch.widen ruled' nested').batch = start'.batch
      rw [(Branch.widen_extends ruled' nested').batch, hextends.batch]
    · show (Branch.widen ruled' nested').path.keys = _
      rw [Branch.widen_path, Branch.widen_path, hkeys hsame]
  · -- every node nested in it has a model, as it had the first time
    obtain ⟨found, hfound⟩ := hnested.opened _
      (hsplit ▸ List.mem_append_right _ (List.mem_cons_self ..))
    exact absurd hfound (opens_error hfault _ found)

end

/-- **Nested nodes have twins below any parent of the same model**, and nothing is reported of
them. -/
theorem Compiles.twins {model : Model} {parent : Task} {nodes : Record} {branches : List Branch}
    {reports : List String} (h : catalog.Compiles (some (model, parent)) nodes branches reports)
    (hreports : reports = []) {parent' : Task} {branches' : List Branch} {reports' : List String}
    (h' : catalog.Compiles (some (model, parent')) nodes branches' reports') :
    reports' = [] ∧ Branch.Twins branches branches' := by
  generalize hhome : some (model, parent) = home at h
  induction h generalizing model parent parent' branches' reports' with
  | nil =>
    cases h' with
    | nil => exact ⟨rfl, .nil⟩
  | unresolved => cases hreports
  | refused => cases hreports
  | misruled => cases hreports
  | broken => exact absurd (List.append_eq_nil_iff.1 hreports).2 (List.cons_ne_nil _ _)
  | @grown _ key value child start ruled fields rest nested branches found reports hopens hfields
      hrules hnested hrest ihnested ihrest =>
    subst hhome
    obtain ⟨hfound, hreports⟩ := List.append_eq_nil_iff.1 hreports
    obtain ⟨start', hopens', hstart⟩ := opens_nested hopens parent'
    obtain ⟨other, nested', branches', rfl, htwin, hbatch, hkeys, htwins, hrest'⟩ :=
      Compiles.twin_node hopens' hstart.twin (Or.inr hstart.isGroup) hfields hrules hnested
        (fun _ _ _ hinner => ihnested hfound hinner rfl) h'
    obtain ⟨hreports', hbranches⟩ := ihrest hreports hrest' rfl
    have hextends := applyRules_extends catalog child start fields
    rw [hrules] at hextends
    have hsame : (Branch.widen ruled nested).batch = start.batch :=
      (Branch.widen_extends ruled nested).batch.trans hextends.batch
    refine ⟨hreports', .node ⟨htwin, hkeys hstart.keys, ?_⟩ htwins hbranches⟩
    rw [hbatch, hstart.isGroup]
    exact congrArg Batch.isGroup hsame.symm

/-- A node of which nothing is reported has all gone well. -/
theorem Compiles.exists_grown {home : Option (Model × Task)} {key : String} {value : Json}
    {rest : Record} {branches : List Branch} {reports : List String}
    (h : catalog.Compiles home ((key, value) :: rest) branches reports) (hreports : reports = []) :
    ∃ model start fields ruled nested more,
      catalog.opens home key value = .ok (model, start) ∧ value.nodeFields? = some fields ∧
      catalog.applyRules model start fields = (ruled, none) ∧
      catalog.Compiles (some (model, Branch.widen ruled nested)) (catalog.nestedFields model fields)
        nested [] ∧
      branches = .grow (Branch.widen ruled nested).addJoinFields nested :: more ∧
      catalog.Compiles home rest more [] := by
  generalize hnodes : (key, value) :: rest = nodes at h
  cases h with
  | nil => cases hnodes
  | unresolved => cases hreports
  | refused => cases hreports
  | misruled => cases hreports
  | broken => exact absurd (List.append_eq_nil_iff.1 hreports).2 (List.cons_ne_nil _ _)
  | @grown _ _ _ model start ruled fields _ nested more _ _ hopens hfields hrules hnested hrest =>
    obtain ⟨⟨rfl, rfl⟩, rfl⟩ := List.cons.inj hnodes |>.imp_left Prod.mk.inj
    obtain ⟨rfl, rfl⟩ := List.append_eq_nil_iff.1 hreports
    exact ⟨model, start, fields, ruled, nested, more, hopens, hfields, hrules, hnested, rfl, hrest⟩

/-- A node at the top without a directive of its own model goes by its key. -/
theorem opens_of_resolve? {key : String} {value : Json} {resolved : Resolved}
    (hdirective : value.get? catalog.settings.keys.model = none)
    (hresolved : catalog.resolve? key = some resolved) :
    catalog.opens none key value = .ok (resolved.model, .start resolved key none none) := by
  have hname : catalog.nodeName key value = key := by rw [nodeName, hdirective]
  simp only [opens, resolveNode, hdirective, hname, hresolved]

/-- **A node under the two names of its model.** If nothing is reported of it as one record, nothing
is reported of it as a list, and all tasks are twins. -/
theorem twin_forest (haccepted : catalog.Accepted) {model : Model} (hmodel : model ∈ catalog.models)
    {body : Json} (hdirective : body.get? catalog.settings.keys.model = none)
    (herrors : (catalog.plan [(model.name, body)]).errors = []) :
    ∃ task other nested nested', catalog.forest [(model.name, body)] = [.node task nested] ∧
      catalog.forest [(model.groupName, body)] = [.node other nested'] ∧
      (catalog.plan [(model.groupName, body)]).errors = [] ∧ task.Twin other ∧
      task.batch.isBatch = false ∧ other.batch.isBatch = true ∧ Branch.Twins nested nested' := by
  have hopens := opens_of_resolve? hdirective (haccepted.resolve?_name hmodel)
  have hopens' := opens_of_resolve? hdirective (haccepted.resolve?_groupName hmodel)
  obtain ⟨found, start, fields, ruled, nested, more, hfound, hfields, hrules, hnested, hforest, hmore⟩ :=
    (catalog.compiles_forest [(model.name, body)]).exists_grown herrors
  rw [hopens] at hfound
  obtain ⟨rfl, rfl⟩ := Prod.mk.inj (Except.ok.inj hfound)
  have htwin : (Task.start ⟨model, false⟩ model.name none none).Twin
      (Task.start ⟨model, true⟩ model.groupName none none) := Task.twin_start (by rfl) (by rfl) _
  obtain ⟨other, nested', more', hforest', hother, hbatch', -, htwins, hmore'⟩ :=
    Compiles.twin_node hopens' htwin (Or.inl rfl) hfields hrules hnested
      (fun _ _ _ hinner => hnested.twins rfl hinner) (catalog.compiles_forest [(model.groupName, body)])
  have hnone : more = [] := by
    cases hmore
    rfl
  have hnone' : more' = [] ∧ (catalog.plan [(model.groupName, body)]).errors = [] := by
    generalize (catalog.plan [(model.groupName, body)]).errors = reports at hmore'
    cases hmore'
    exact ⟨rfl, rfl⟩
  have hbatch := applyRules_extends catalog model (.start ⟨model, false⟩ model.name none none) fields
  rw [hrules] at hbatch
  refine ⟨_, other, nested, nested', by rw [hforest, hnone]; rfl, by rw [hforest', hnone'.1], hnone'.2,
    hother, ?_, by rw [hbatch']; rfl, htwins⟩
  show (Branch.widen ruled nested).batch.isBatch = false
  rw [(Branch.widen_extends ruled nested).batch, hbatch.batch]
  rfl

end Catalog

end NestedQuery
