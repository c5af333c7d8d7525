import NestedQuery.Proofs.Plan.Fitting
/-!
# Compiling is determined

The relation by which compiling was told is a function: nodes compile to
one list of branches, with one list of reports (`Catalog.Compiles.unique`),
and they do so one by one (`Catalog.Compiles.split`). Below a parent
nothing but its place counts (`Catalog.Compiles.congr_parent`). So what a
changed request compiles to can be told by giving a derivation for it.
-/

namespace NestedQuery

namespace Catalog

variable {catalog : Catalog} {parent : Option (Model × Task)} {key : String} {value : Json}
  {model : Model} {start ruled : Task} {fields : Record} {branches : List Branch}
  {reports : List String}

/-! ## What counts of a parent and of a value -/

theorem opens_congr_parent {home home' : Task} (hpath : home.path = home'.path)
    (hbatch : home.batch = home'.batch) (key : String) (value : Json) :
    catalog.opens (some (model, home)) key value = catalog.opens (some (model, home')) key value := by
  simp only [opens, Task.start_congr hpath hbatch]

/-- Nodes compile alike below parents of one model in one place. -/
theorem Compiles.congr_parent {home home' : Task} {nodes : Record}
    (h : catalog.Compiles (some (model, home)) nodes branches reports)
    (hpath : home.path = home'.path) (hbatch : home.batch = home'.batch) :
    catalog.Compiles (some (model, home')) nodes branches reports := by
  have hopens : ∀ key value, catalog.opens (some (model, home)) key value =
      catalog.opens (some (model, home')) key value := opens_congr_parent hpath hbatch
  generalize hparent : some (model, home) = parent at h
  induction h with
  | nil => exact .nil
  | unresolved => cases hparent
  | refused hopen hvalue _ ih =>
    subst hparent
    exact .refused (hopens _ _ ▸ hopen) hvalue (ih rfl)
  | misruled hopen hvalue hrules _ ih =>
    subst hparent
    exact .misruled (hopens _ _ ▸ hopen) hvalue hrules (ih rfl)
  | broken hopen hvalue hrules hfields hlost hfault _ _ ih =>
    subst hparent
    exact .broken (hopens _ _ ▸ hopen) hvalue hrules hfields hlost hfault (ih rfl)
  | grown hopen hvalue hrules hnested _ _ ih =>
    subst hparent
    exact .grown (hopens _ _ ▸ hopen) hvalue hrules hnested (ih rfl)

/-- It makes no difference which columns the parent has for what is nested in it. -/
theorem Compiles.rewiden {nested : List Branch} {nodes : Record}
    (h : catalog.Compiles (some (model, Branch.widen ruled nested)) nodes branches reports)
    (nested' : List Branch) :
    catalog.Compiles (some (model, Branch.widen ruled nested')) nodes branches reports := by
  have hpath : (Branch.widen ruled nested).path = (Branch.widen ruled nested').path :=
    (Branch.widen_path ruled nested).trans (Branch.widen_path ruled nested').symm
  have hbatch : (Branch.widen ruled nested).batch = (Branch.widen ruled nested').batch :=
    (Branch.widen_extends ruled nested).batch.trans (Branch.widen_extends ruled nested').batch.symm
  exact h.congr_parent hpath hbatch

section

variable {value' : Json}
  (h : value.get? catalog.settings.keys.model = value'.get? catalog.settings.keys.model)

include h

theorem nodeName_congr_value : catalog.nodeName key value = catalog.nodeName key value' := by
  rw [nodeName, nodeName, h]

theorem resolveNode_congr_value : catalog.resolveNode key value = catalog.resolveNode key value' := by
  rw [resolveNode, resolveNode, h, nodeName_congr_value h]

theorem resolveNested_congr_value (model : Model) :
    catalog.resolveNested model key value = catalog.resolveNested model key value' := by
  rw [resolveNested, resolveNested, resolveNode_congr_value h]

/-- Of its value a node reads nothing but the model directive before it is opened. -/
theorem opens_congr_value : catalog.opens parent key value = catalog.opens parent key value' := by
  cases parent with
  | none => rw [opens, opens, resolveNode_congr_value h]
  | some home => rw [opens, opens, resolveNested_congr_value h]

end

/-! ## Node by node -/

/-- A nested node is opened unless it is at fault, and then nothing is compiled behind it. -/
theorem Compiles.opened {home : Model × Task} {nodes : Record}
    (h : catalog.Compiles (some home) nodes branches reports) :
    ∀ node ∈ nodes, ∃ found, catalog.opens (some home) node.1 node.2 = .ok found := by
  generalize hparent : some home = parent at h
  induction h with
  | nil => simp
  | unresolved => cases hparent
  | refused hopens _ _ ih => exact List.forall_mem_cons.2 ⟨⟨_, hopens⟩, ih hparent⟩
  | misruled hopens _ _ _ ih => exact List.forall_mem_cons.2 ⟨⟨_, hopens⟩, ih hparent⟩
  | broken hopens _ _ _ _ _ _ _ ih =>
    exact List.forall_mem_cons.2 ⟨⟨_, hopens⟩, ih hparent⟩
  | grown hopens _ _ _ _ _ ih => exact List.forall_mem_cons.2 ⟨⟨_, hopens⟩, ih hparent⟩

/-- A node at fault is not opened below any parent of its model. -/
theorem opens_error {fault : Fault} (h : catalog.resolveNested model key value = .error fault)
    (home : Task) (found : Model × Task) :
    catalog.opens (some (model, home)) key value ≠ .ok found := by
  simp [opens, h]

/-- Nodes compile one by one. -/
theorem Compiles.split_cons {node : String × Json} {rest : Record}
    (h : catalog.Compiles parent (node :: rest) branches reports) :
    ∃ branch others own more, branches = branch :: others ∧ reports = own ++ more ∧
      catalog.Compiles parent [node] [branch] own ∧ catalog.Compiles parent rest others more := by
  cases h with
  | unresolved hres hrest => exact ⟨_, _, [_], _, rfl, rfl, .unresolved hres .nil, hrest⟩
  | refused hopens hvalue hrest => exact ⟨_, _, [_], _, rfl, rfl, .refused hopens hvalue .nil, hrest⟩
  | misruled hopens hvalue hrules hrest =>
    exact ⟨_, _, [_], _, rfl, rfl, .misruled hopens hvalue hrules .nil, hrest⟩
  | broken hopens hvalue hrules hfields hlost hfault hrest =>
    exact ⟨_, _, _ ++ [_], _, rfl, by simp, .broken hopens hvalue hrules hfields hlost hfault .nil,
      hrest⟩
  | grown hopens hvalue hrules hnested hrest =>
    have hone := Compiles.grown hopens hvalue hrules hnested .nil
    rw [List.append_nil] at hone
    exact ⟨_, _, _, _, rfl, rfl, hone, hrest⟩

/-- Nodes in front of others compile to branches in front of others. -/
theorem Compiles.split {nodes more : Record}
    (h : catalog.Compiles parent (nodes ++ more) branches reports) :
    ∃ before after found found', branches = before ++ after ∧ reports = found ++ found' ∧
      catalog.Compiles parent nodes before found ∧ catalog.Compiles parent more after found' := by
  induction nodes generalizing branches reports with
  | nil => exact ⟨[], branches, [], reports, rfl, rfl, .nil, h⟩
  | cons node rest ih =>
    obtain ⟨branch, others, own, reported, rfl, rfl, hnode, hrest⟩ := h.split_cons
    obtain ⟨before, after, found, found', rfl, rfl, hbefore, hafter⟩ := ih hrest
    refine ⟨branch :: before, after, own ++ found, found', rfl, (List.append_assoc ..).symm, ?_, hafter⟩
    exact hnode.append hbefore

/-- A node whose rules go well grows, unless a node nested in it is at fault. -/
theorem Compiles.of_ruled (hopens : catalog.opens parent key value = .ok (model, start))
    (hvalue : value.nodeFields? = some fields)
    (hrules : catalog.applyRules model start fields = (ruled, none))
    (h : catalog.Compiles parent [(key, value)] branches reports) :
    (∃ nested, branches = [.grow (Branch.widen ruled nested).addJoinFields nested] ∧
      catalog.Compiles (some (model, Branch.widen ruled nested)) (catalog.nestedFields model fields)
        nested reports) ∨
    ∃ before name inner after fault lost found,
      catalog.nestedFields model fields = before ++ (name, inner) :: after ∧
      catalog.resolveNested model name inner = .error fault ∧
      catalog.Compiles (some (model, Branch.widen ruled lost)) before lost found ∧
      branches = [(Branch.fail (Branch.widen ruled lost) fault).1] ∧
      reports = found ++ [(Branch.fail (Branch.widen ruled lost) fault).2] := by
  cases h with
  | unresolved hres _ => simp [opens, hres] at hopens
  | refused hopens' hvalue' _ =>
    rw [hvalue] at hvalue'
    cases hvalue'
  | misruled hopens' hvalue' hrules' _ =>
    rw [hvalue] at hvalue'
    rw [hopens] at hopens'
    obtain ⟨rfl, rfl⟩ := Prod.mk.inj (Except.ok.inj hopens')
    obtain rfl := Option.some.inj hvalue'
    rw [hrules] at hrules'
    cases hrules'
  | broken hopens' hvalue' hrules' hfields hlost hfault hrest =>
    rw [hvalue] at hvalue'
    rw [hopens] at hopens'
    obtain ⟨rfl, rfl⟩ := Prod.mk.inj (Except.ok.inj hopens')
    obtain rfl := Option.some.inj hvalue'
    rw [hrules] at hrules'
    obtain ⟨rfl, -⟩ := Prod.mk.inj hrules'
    cases hrest
    exact .inr ⟨_, _, _, _, _, _, _, hfields, hfault, hlost, rfl, rfl⟩
  | grown hopens' hvalue' hrules' hnested hrest =>
    rw [hvalue] at hvalue'
    rw [hopens] at hopens'
    obtain ⟨rfl, rfl⟩ := Prod.mk.inj (Except.ok.inj hopens')
    obtain rfl := Option.some.inj hvalue'
    rw [hrules] at hrules'
    obtain ⟨rfl, -⟩ := Prod.mk.inj hrules'
    cases hrest
    rw [List.append_nil]
    exact .inl ⟨_, rfl, hnested⟩

/-! ## Uniqueness -/

/-- Of two places in one list, one is the other, or it is before it, or behind it. -/
theorem append_cons_cases {α : Type} {front back before after : List α} {x y : α}
    (h : front ++ x :: back = before ++ y :: after) :
    (front = before ∧ x = y) ∨ x ∈ before ∨
      ∃ more, front = before ++ y :: more ∧ after = more ++ x :: back := by
  rcases List.append_eq_append_iff.1 h with ⟨more, rfl, hmore⟩ | ⟨more, rfl, hmore⟩
  · cases more with
    | nil => exact .inl ⟨(List.append_nil _).symm, (List.cons.inj hmore).1⟩
    | cons first rest =>
      obtain ⟨rfl, -⟩ := List.cons.inj hmore
      exact .inr (.inl (List.mem_append_right _ (List.mem_cons_self ..)))
  · cases more with
    | nil => exact .inl ⟨List.append_nil _, (List.cons.inj hmore).1.symm⟩
    | cons first rest =>
      obtain ⟨rfl, rfl⟩ := List.cons.inj hmore
      exact .inr (.inr ⟨rest, rfl, rfl⟩)

/-- There is one first node that is at fault. -/
theorem before_eq_of_fault {home : Model × Task} {before before' after after' : Record}
    {node node' : String × Json} (h : before ++ node :: after = before' ++ node' :: after')
    (hbefore : ∀ n ∈ before, ∃ found, catalog.opens (some home) n.1 n.2 = .ok found)
    (hbefore' : ∀ n ∈ before', ∃ found, catalog.opens (some home) n.1 n.2 = .ok found)
    (hnode : ∀ found, catalog.opens (some home) node.1 node.2 ≠ .ok found)
    (hnode' : ∀ found, catalog.opens (some home) node'.1 node'.2 ≠ .ok found) :
    before = before' ∧ node = node' := by
  rcases append_cons_cases h with heq | hmem | ⟨more, rfl, -⟩
  · exact heq
  · obtain ⟨found, hfound⟩ := hbefore' node hmem
    exact absurd hfound (hnode found)
  · obtain ⟨found, hfound⟩ := hbefore node' (List.mem_append_right _ (List.mem_cons_self ..))
    exact absurd hfound (hnode' found)

/-- **Compiling is determined**: nodes compile to nothing else but what they compile to. -/
theorem Compiles.unique {nodes : Record} (h : catalog.Compiles parent nodes branches reports)
    {branches' : List Branch} {reports' : List String}
    (h' : catalog.Compiles parent nodes branches' reports') :
    branches' = branches ∧ reports' = reports := by
  induction h generalizing branches' reports' with
  | nil =>
    cases h'
    exact ⟨rfl, rfl⟩
  | unresolved hres _ ih =>
    cases h' with
    | unresolved hres' hrest' =>
      obtain rfl := Except.error.inj (hres.symm.trans hres')
      obtain ⟨rfl, rfl⟩ := ih hrest'
      exact ⟨rfl, rfl⟩
    | refused hopens' | misruled hopens' | broken hopens' | grown hopens' =>
      simp [opens, hres] at hopens'
  | refused hopens hvalue _ ih =>
    cases h' with
    | unresolved hres' => simp [opens, hres'] at hopens
    | refused hopens' _ hrest' =>
      obtain ⟨-, rfl⟩ := Prod.mk.inj (Except.ok.inj (hopens.symm.trans hopens'))
      obtain ⟨rfl, rfl⟩ := ih hrest'
      exact ⟨rfl, rfl⟩
    | misruled _ hvalue' | broken _ hvalue' | grown _ hvalue' => cases hvalue.symm.trans hvalue'
  | misruled hopens hvalue hrules _ ih =>
    cases h' with
    | unresolved hres' => simp [opens, hres'] at hopens
    | refused _ hvalue' => cases hvalue.symm.trans hvalue'
    | misruled hopens' hvalue' hrules' hrest' =>
      obtain ⟨rfl, rfl⟩ := Prod.mk.inj (Except.ok.inj (hopens.symm.trans hopens'))
      obtain rfl := Option.some.inj (hvalue.symm.trans hvalue')
      obtain ⟨rfl, hfault⟩ := Prod.mk.inj (hrules.symm.trans hrules')
      obtain rfl := Option.some.inj hfault
      obtain ⟨rfl, rfl⟩ := ih hrest'
      exact ⟨rfl, rfl⟩
    | broken hopens' hvalue' hrules' | grown hopens' hvalue' hrules' =>
      obtain ⟨rfl, rfl⟩ := Prod.mk.inj (Except.ok.inj (hopens.symm.trans hopens'))
      obtain rfl := Option.some.inj (hvalue.symm.trans hvalue')
      cases (Prod.mk.inj (hrules.symm.trans hrules')).2
  | @broken _ _ _ _ _ _ _ _ _ _ _ _ _ lost _ _ _ hopens hvalue hrules hfields hlost hfault _ ihlost ih =>
    obtain ⟨branch, others, own, more, rfl, rfl, hnode, hrest⟩ := h'.split_cons
    obtain ⟨rfl, rfl⟩ := ih hrest
    rcases hnode.of_ruled hopens hvalue hrules with ⟨nested, -, hnested⟩ |
      ⟨before', name', inner', after', fault', lost', found', hfields', hfault', hlost', hbranch, rfl⟩
    · -- the node at fault would have been opened
      obtain ⟨found, hfound⟩ := hnested.opened _
        (hfields ▸ List.mem_append_right _ (List.mem_cons_self ..))
      exact absurd hfound (opens_error hfault _ found)
    · have hlost' := hlost'.rewiden lost
      obtain ⟨rfl, hname⟩ := before_eq_of_fault (hfields.symm.trans hfields') hlost.opened
        hlost'.opened (opens_error hfault _) (opens_error hfault' _)
      obtain ⟨rfl, rfl⟩ := Prod.mk.inj hname
      obtain rfl := Except.error.inj (hfault.symm.trans hfault')
      obtain ⟨rfl, rfl⟩ := ihlost hlost'
      obtain ⟨rfl, -⟩ := List.cons.inj hbranch
      exact ⟨rfl, by simp⟩
  | grown hopens hvalue hrules hnested _ ihnested ih =>
    obtain ⟨branch, others, own, more, rfl, rfl, hnode, hrest⟩ := h'.split_cons
    obtain ⟨rfl, rfl⟩ := ih hrest
    rcases hnode.of_ruled hopens hvalue hrules with ⟨nested', hbranch, hnested'⟩ |
      ⟨before', name', inner', after', fault', lost', found', hfields', hfault', hlost', -, -⟩
    · obtain ⟨rfl, rfl⟩ := ihnested (hnested'.rewiden _)
      obtain ⟨rfl, -⟩ := List.cons.inj hbranch
      exact ⟨rfl, rfl⟩
    · obtain ⟨found, hfound⟩ := hnested.opened _
        (hfields' ▸ List.mem_append_right _ (List.mem_cons_self ..))
      exact absurd hfound (opens_error hfault' _ found)

end Catalog

end NestedQuery
