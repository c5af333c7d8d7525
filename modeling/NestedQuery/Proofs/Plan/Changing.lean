import NestedQuery.Proofs.Json.Forgetting
import NestedQuery.Proofs.Plan.Determined
/-!
# A change somewhere in a request

A node is changed without anything else being touched: all that is
compiled before and behind it stays as it is, and of the nodes around it
the rules go as they went. So from what the change does to the branch of
the node alone follows what it does to a plan (`Catalog.ChangesTo.among`,
`Catalog.ChangesTo.inside`), as long as what is joined to stays
(`Branch.Congruent`). If a node around it fails, nothing is left of the
change but what was reported. And a nested node without a model is not
compiled at all: if none is found for the changed one, too, the node
around both fails alike (`Catalog.Compiles.unopened`).
-/

namespace NestedQuery

/-! ## A key of a keyed list -/

namespace Keyed

variable {α : Type} {f : α → α} {entries more : Keyed α} {key : String}

theorem adjust_of_notMem (h : key ∉ keys entries) : adjust f entries key = entries := by
  refine (List.map_congr_left fun entry hentry => ?_).trans (List.map_id entries)
  have hne : entry.1 ≠ key := fun heq => h (heq ▸ List.mem_map_of_mem hentry)
  exact if_neg hne

theorem adjust_append (f : α → α) (entries more : Keyed α) (key : String) :
    adjust f (entries ++ more) key = adjust f entries key ++ adjust f more key :=
  List.map_append

/-- Where no key is repeated, the one entry of a key is neither before nor behind itself. -/
theorem notMem_of_nodup {value : α} (h : (keys (entries ++ (key, value) :: more)).Nodup) :
    key ∉ keys entries ∧ key ∉ keys more := by
  rw [keys, List.map_append, List.map_cons, List.nodup_append] at h
  obtain ⟨-, hmore, hapart⟩ := h
  exact ⟨fun hmem => hapart key hmem key (List.mem_cons_self ..) rfl, (List.nodup_cons.1 hmore).1⟩

theorem adjust_at {value : α} (h : (keys (entries ++ (key, value) :: more)).Nodup) :
    adjust f (entries ++ (key, value) :: more) key = entries ++ (key, f value) :: more := by
  obtain ⟨hbefore, hafter⟩ := notMem_of_nodup h
  rw [adjust_append, adjust_of_notMem hbefore, adjust_cons, if_pos rfl, adjust_of_notMem hafter]

end Keyed

theorem Json.isNull_onRecords (f : Record → Record) (value : Json) :
    (value.onRecords f).isNull = value.isNull := by
  cases value <;> rfl

/-! ## The rules of a node in which a nested one is changed -/

namespace Catalog

variable {catalog : Catalog} {parent : Option (Model × Task)} {model : Model} {name key : String}
  {fields fields' : Record} {start ruled : Task}

/-- A change of the fields of a node that its opening and its rules do not notice. -/
structure Spares (catalog : Catalog) (model : Model) (fields fields' : Record) : Prop where
  directive : Keyed.get? fields' catalog.settings.keys.model =
    Keyed.get? fields catalog.settings.keys.model
  rules : ∀ {start ruled : Task}, catalog.applyRules model start fields = (ruled, none) →
    catalog.applyRules model start fields' = (ruled, none)

theorem Spares.opens (h : catalog.Spares model fields fields')
    (parent : Option (Model × Task)) (name : String) :
    catalog.opens parent name (.obj fields') = catalog.opens parent name (.obj fields) :=
  opens_congr_value h.directive

/-- Whoever leaves the keys with a rule alone leaves the model directive alone. -/
theorem ne_model_of_not_hasRule (h : catalog.hasRule model key = false) :
    key ≠ catalog.settings.keys.model := by
  rintro rfl
  rw [hasRule, Option.isSome_eq_false_iff, Option.isNone_iff_eq_none] at h
  exact (Model.no_column h).1 .model rfl

/-- Rules that go well do not care what stands under a key that has none, as long as it is not
null. -/
theorem applyRules_adjust {f : Json → Json} (hf : ∀ value : Json, (f value).isNull = value.isNull)
    (hrule : catalog.hasRule model key = false)
    (h : catalog.applyRules model start fields = (ruled, none)) :
    catalog.applyRules model start (Keyed.adjust f fields key) = (ruled, none) := by
  fun_induction applyRules catalog model start fields with
  | case1 => exact h
  | case2 => cases (Prod.mk.inj h).2
  | case3 task name value rest hnull hnone ih =>
    rw [Keyed.adjust_cons]
    split
    · rw [applyRules, if_neg (by rwa [hf]), hnone]
      exact ih h
    · rw [applyRules, if_neg hnull, hnone]
      exact ih h
  | case4 => cases (Prod.mk.inj h).2
  | case5 task name value rest hnull rule hname task' happly ih =>
    have hne : name ≠ key := by
      rintro rfl
      rw [hasRule, hname] at hrule
      cases hrule
    rw [Keyed.adjust_cons, if_neg hne, applyRules, if_neg hnull, hname]
    simp only [happly]
    exact ih h

theorem spares_adjust {f : Json → Json} (hf : ∀ value : Json, (f value).isNull = value.isNull)
    (hrule : catalog.hasRule model key = false) :
    catalog.Spares model fields (Keyed.adjust f fields key) :=
  ⟨(Record.confined_adjust f key).get? fields _ (ne_model_of_not_hasRule hrule),
    applyRules_adjust hf hrule⟩

theorem nestedFields_adjust (catalog : Catalog) (model : Model) (f : Json → Json) (fields : Record)
    (key : String) :
    catalog.nestedFields model (Keyed.adjust f fields key) =
      Keyed.adjust f (catalog.nestedFields model fields) key := by
  rw [nestedFields, nestedFields, Keyed.adjust, Keyed.adjust, List.filter_map]
  congr 1
  refine List.filter_congr fun field _ => ?_
  by_cases heq : field.1 = key <;> simp [heq]

/-- Nodes behind one at fault are not compiled: one that is opened is before it, if those before
this one are opened, too. -/
theorem before_of_fault {home : Model × Task} {passed left before after : Record}
    {bad node : String × Json} (h : passed ++ bad :: left = before ++ node :: after)
    (hbad : ∀ found, catalog.opens (some home) bad.1 bad.2 ≠ .ok found)
    (hbefore : ∀ n ∈ before, ∃ found, catalog.opens (some home) n.1 n.2 = .ok found)
    (hnode : ∃ found, catalog.opens (some home) node.1 node.2 = .ok found) :
    ∃ more, passed = before ++ node :: more ∧ after = more ++ bad :: left := by
  rcases append_cons_cases h with ⟨-, rfl⟩ | hmem | hbehind
  · obtain ⟨found, hfound⟩ := hnode
    exact absurd hfound (hbad found)
  · obtain ⟨found, hfound⟩ := hbefore bad hmem
    exact absurd hfound (hbad found)
  · exact hbehind

end Catalog

/-! ## What a change does to a plan -/

namespace Branch

/-- Branches of which the roots have the same links are joined to alike. -/
theorem widen_congr {branches branches' : List Branch}
    (h : branches.map (fun branch => branch.root.link) =
      branches'.map fun branch => branch.root.link) (task : Task) :
    widen task branches = widen task branches' := by
  induction branches generalizing branches' task with
  | nil =>
    obtain rfl := List.map_eq_nil_iff.1 h.symm
    rfl
  | cons branch rest ih =>
    cases branches' with
    | nil => cases h
    | cons branch' rest' =>
      obtain ⟨hlink, hrest⟩ := List.cons.inj h
      have hlink : branch.root.link = branch'.root.link := hlink
      rw [widen, widen, hlink]
      split <;> exact ih hrest _

/-- A way in which forests differ somewhere, at the end of some paths: they may be the same, they
may stand among others or inside a task that is the same, and they join to the same columns. -/
structure Congruent (Differ : List (List String) → List Branch → List Branch → Prop) : Prop where
  lost : ∀ (paths : List (List String)) (branches : List Branch), Differ paths branches branches
  among : ∀ {paths : List (List String)} {branches branches' : List Branch}
    (before after : List Branch), Differ paths branches branches' →
    Differ paths (before ++ (branches ++ after)) (before ++ (branches' ++ after))
  inside : ∀ {path : List String} {paths : List (List String)} {nested nested' : List Branch}
    {task : Task}, task.path.keys = path → Differ paths nested nested' →
    Differ (path :: paths) [.grow task nested] [.grow task nested']
  widen : ∀ {paths : List (List String)} {branches branches' : List Branch},
    Differ paths branches branches' → ∀ task, widen task branches = widen task branches'

theorem congruent_same : Congruent fun _ branches branches' => branches = branches' where
  lost := fun _ _ => rfl
  among := fun before after h => congrArg (fun branches => before ++ (branches ++ after)) h
  inside := fun _ h => congrArg (fun nested => [grow _ nested]) h
  widen := fun h task => congrArg (Branch.widen task) h

end Branch

/-- Other nodes compile to branches that differ in some way, and in place of some reports there are
others. -/
def Catalog.ChangesTo (catalog : Catalog)
    (Differ : List (List String) → List Branch → List Branch → Prop) (parent : Option (Model × Task))
    (nodes' : Record) (paths : List (List String)) (own own' : List String) (branches : List Branch)
    (reports : List String) : Prop :=
  ∃ branches' found found', reports = found ++ own ++ found' ∧
    catalog.Compiles parent nodes' branches' (found ++ own' ++ found') ∧
    Differ paths branches branches'

namespace Catalog.ChangesTo

variable {catalog : Catalog} {Differ : List (List String) → List Branch → List Branch → Prop}
  {parent : Option (Model × Task)} {model : Model} {name next : String}
  {fields fields' before after : Record} {value value' : Json} {start ruled : Task}
  {paths : List (List String)} {own own' : List String} {branches : List Branch}
  {reports : List String}

/-- Nothing differs if the other nodes compile to the same. -/
theorem same_iff {nodes' : Record} (paths : List (List String)) :
    catalog.ChangesTo (fun _ branches branches' => branches = branches') parent nodes' paths [] []
      branches reports ↔ catalog.Compiles parent nodes' branches reports := by
  constructor
  · rintro ⟨_, found, found', rfl, hcompiles, rfl⟩
    exact hcompiles
  · intro hcompiles
    exact ⟨branches, reports, [], by simp, by simpa using hcompiles, rfl⟩

/-- Nodes before and behind compile to what they did. -/
theorem among (hcongruent : Branch.Congruent Differ)
    (hcompiles : catalog.Compiles parent (before ++ (name, value) :: after) branches reports)
    (hnode : ∀ branches reports, catalog.Compiles parent [(name, value)] branches reports →
      catalog.ChangesTo Differ parent [(name, value')] paths own own' branches reports) :
    catalog.ChangesTo Differ parent (before ++ (name, value') :: after) paths own own' branches
      reports := by
  obtain ⟨first, others, reported, more, rfl, rfl, hfirst, hothers⟩ := hcompiles.split
  obtain ⟨branch, last, rest, behind, rfl, rfl, hone, hlast⟩ := hothers.split_cons
  obtain ⟨changed, found, found', rfl, hchanged, hbranches⟩ := hnode _ _ hone
  refine ⟨first ++ (changed ++ last), reported ++ found, found' ++ behind, by simp, ?_,
    hcongruent.among _ _ hbranches⟩
  have hall := hfirst.append (hchanged.append hlast)
  simpa using hall

/-- The node around changes in what is nested in it, unless it fails as it failed. -/
theorem inside (hcongruent : Branch.Congruent Differ)
    (hopens : catalog.opens parent name (.obj fields) = .ok (model, start))
    (hrules : catalog.applyRules model start fields = (ruled, none))
    (hspared : catalog.Spares model fields fields')
    (hsplit : catalog.nestedFields model fields = before ++ (next, value) :: after)
    (hsplit' : catalog.nestedFields model fields' = before ++ (next, value') :: after)
    (hbefore : ∀ node ∈ before, ∃ found, catalog.opens (some (model, ruled)) node.1 node.2 = .ok found)
    (hopened : ∃ found, catalog.opens (some (model, ruled)) next value = .ok found)
    (hnode : ∀ branches reports,
      catalog.Compiles (some (model, ruled)) [(next, value)] branches reports →
      catalog.ChangesTo Differ (some (model, ruled)) [(next, value')] paths own own' branches reports)
    (hcompiles : catalog.Compiles parent [(name, .obj fields)] branches reports) :
    catalog.ChangesTo Differ parent [(name, .obj fields')] (ruled.path.keys :: paths) own own' branches
      reports := by
  have hopens' := (hspared.opens parent name).trans hopens
  rcases hcompiles.of_ruled hopens rfl hrules with ⟨nested, rfl, hnested⟩ |
    ⟨passed, bad, inner, left, fault, lost, reported, hfields, hfault, hlost, rfl, rfl⟩
  · rw [hsplit] at hnested
    obtain ⟨nested', found, found', rfl, hnested', hdiffer⟩ := among hcongruent
      (hnested.congr_parent (Branch.widen_path ..) (Branch.widen_extends ..).batch) hnode
    have hbelow : catalog.Compiles (some (model, Branch.widen ruled nested'))
        (catalog.nestedFields model fields') nested' (found ++ own' ++ found') := by
      rw [hsplit']
      exact hnested'.congr_parent (Branch.widen_path ..).symm (Branch.widen_extends ..).batch.symm
    have hgrown := Compiles.grown hopens' rfl (hspared.rules hrules) hbelow .nil
    rw [List.append_nil, ← hcongruent.widen hdiffer ruled] at hgrown
    have hpath : (Branch.widen ruled nested).addJoinFields.path.keys = ruled.path.keys :=
      congrArg NodePath.keys (Branch.widen_path ruled nested)
    exact ⟨_, found, found', rfl, hgrown, hcongruent.inside hpath hdiffer⟩
  · -- the node at fault is behind the changed one, and stays at fault
    obtain ⟨more, rfl, rfl⟩ := before_of_fault (hfields.symm.trans hsplit) (opens_error hfault _)
      hbefore hopened
    obtain ⟨lost', found, found', rfl, hlost', hdiffer⟩ := among hcongruent
      (hlost.congr_parent (Branch.widen_path ..) (Branch.widen_extends ..).batch) hnode
    have hbelow : catalog.nestedFields model fields' =
        (before ++ (next, value') :: more) ++ (bad, inner) :: left := by
      rw [hsplit', List.append_assoc]
      rfl
    have hbroken := Compiles.broken hopens' rfl (hspared.rules hrules) hbelow
      (hlost'.congr_parent (Branch.widen_path ruled lost').symm
        (Branch.widen_extends ruled lost').batch.symm) hfault .nil
    rw [← hcongruent.widen hdiffer ruled] at hbroken
    refine ⟨_, found, found' ++ [(Branch.fail (Branch.widen ruled lost) fault).2],
      List.append_assoc .., ?_, hcongruent.lost _ _⟩
    rw [← List.append_assoc]
    exact hbroken

end Catalog.ChangesTo

/-- A node fails alike at one node nested in it and at another, if it finds no model for either. -/
theorem Catalog.Compiles.unopened {catalog : Catalog} {parent : Option (Model × Task)} {model : Model}
    {name next : String} {fields fields' before after : Record} {value value' : Json}
    {start ruled : Task} {fault : Fault} {branches : List Branch} {reports : List String}
    (hopens : catalog.opens parent name (.obj fields) = .ok (model, start))
    (hrules : catalog.applyRules model start fields = (ruled, none))
    (hspared : catalog.Spares model fields fields')
    (hsplit : catalog.nestedFields model fields = before ++ (next, value) :: after)
    (hsplit' : catalog.nestedFields model fields' = before ++ (next, value') :: after)
    (hbefore : ∀ node ∈ before, ∃ found, catalog.opens (some (model, ruled)) node.1 node.2 = .ok found)
    (hfault : catalog.resolveNested model next value = .error fault)
    (hfault' : catalog.resolveNested model next value' = .error fault)
    (h : catalog.Compiles parent [(name, .obj fields)] branches reports) :
    catalog.Compiles parent [(name, .obj fields')] branches reports := by
  rcases h.of_ruled hopens rfl hrules with ⟨nested, -, hnested⟩ |
    ⟨passed, bad, inner, left, found, lost, reported, hfields, hbad, hlost, rfl, rfl⟩
  · -- the node would have been opened
    obtain ⟨opened, hopened⟩ := hnested.opened _
      (hsplit ▸ List.mem_append_right _ (List.mem_cons_self ..))
    exact absurd hopened (opens_error hfault _ opened)
  · have hpassed := hlost.congr_parent (Branch.widen_path ..) (Branch.widen_extends ..).batch
    obtain ⟨rfl, hnode⟩ := before_eq_of_fault (hfields.symm.trans hsplit) hpassed.opened hbefore
      (opens_error hbad _) (opens_error hfault _)
    obtain ⟨rfl, rfl⟩ := Prod.mk.inj hnode
    obtain rfl := Except.error.inj (hbad.symm.trans hfault)
    exact .broken ((hspared.opens parent name).trans hopens) rfl (hspared.rules hrules) hsplit' hlost
      hfault' .nil

end NestedQuery
