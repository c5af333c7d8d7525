import NestedQuery.Proofs.Plan.Changing
/-!
# A request without one nested node

To drop a nested node from a node that compiles well changes little of
the plan. The tasks behind it move up, those above count less, and the
task of the node itself no longer fetches and indexes the column that
the dropped node joined to; nothing else is different
(`Branch.Pruned`), and of the reports those of the dropped node are
missing (`Catalog.Reaches.prunesTo`).

A node is told by its address, the keys that lead to it. It need not be
part of the plan in the end: a node above it may fail later, and takes
what it compiled with it.
-/

namespace NestedQuery

/-! ## Nodes of a request -/

/-- A node that is compiled: its model, the task that its rules made of a fresh one, its fields, and
the paths under which its records stand, each below the records of the node before. -/
structure Catalog.Site where
  model : Model
  task : Task
  fields : Record
  paths : List (List String)

/-- A node is compiled among others, and its rules go well. -/
def Catalog.Enters (catalog : Catalog) (parent : Option (Model × Task)) (nodes : Record)
    (name : String) (fields : Record) (model : Model) (ruled : Task) : Prop :=
  ∃ before after start, nodes = before ++ (name, .obj fields) :: after ∧
    -- a nested node without a model ends the compiling of those behind it
    (∀ home, parent = some home →
      ∀ node ∈ before, ∃ found, catalog.opens (some home) node.1 node.2 = .ok found) ∧
    catalog.opens parent name (.obj fields) = .ok (model, start) ∧
    catalog.applyRules model start fields = (ruled, none)

/-- An address leads to a node that is compiled. -/
inductive Catalog.Reaches (catalog : Catalog) :
    Option (Model × Task) → Record → List String → Site → Prop where
  | here {parent : Option (Model × Task)} {nodes : Record} {name : String} {fields : Record}
      {model : Model} {ruled : Task} :
      catalog.Enters parent nodes name fields model ruled →
      Reaches catalog parent nodes [name] ⟨model, ruled, fields, [ruled.path.keys]⟩
  | inside {parent : Option (Model × Task)} {nodes : Record} {name : String} {fields : Record}
      {model : Model} {ruled : Task} {address : List String} {site : Site} :
      catalog.Enters parent nodes name fields model ruled →
      Reaches catalog (some (model, ruled)) (catalog.nestedFields model fields) address site →
      Reaches catalog parent nodes (name :: address)
        { site with paths := ruled.path.keys :: site.paths }

/-- A request without a key of the node at an address. -/
def Record.prune (request : Record) (address : List String) (key : String) : Record :=
  request.forget key (address.map fun name => [name])

/-! ## What pruning does to the fields of a node -/

namespace Keyed

variable {α : Type} {entries more : Keyed α} {key : String}

theorem erase_of_notMem (h : key ∉ keys entries) : erase entries key = entries := by
  refine List.filter_eq_self.2 fun entry hentry => ?_
  exact decide_eq_true fun heq => h (heq ▸ List.mem_map_of_mem hentry)

theorem erase_append (entries more : Keyed α) (key : String) :
    erase (entries ++ more) key = erase entries key ++ erase more key :=
  List.filter_append ..

theorem erase_at {value : α} (h : (keys (entries ++ (key, value) :: more)).Nodup) :
    erase (entries ++ (key, value) :: more) key = entries ++ more := by
  obtain ⟨hbefore, hafter⟩ := notMem_of_nodup h
  rw [erase_append, erase_of_notMem hbefore, erase_cons, if_pos rfl, erase_of_notMem hafter]

end Keyed

namespace Catalog

variable {catalog : Catalog} {model : Model} {fields : Record} {key : String} {start ruled : Task}

/-- Rules that go well do so without a key that has none. -/
theorem applyRules_erase (hrule : catalog.hasRule model key = false)
    (h : catalog.applyRules model start fields = (ruled, none)) :
    catalog.applyRules model start (Keyed.erase fields key) = (ruled, none) := by
  fun_induction applyRules catalog model start fields with
  | case1 => exact h
  | case2 => cases (Prod.mk.inj h).2
  | case3 task name value rest hnull hnone ih =>
    rw [Keyed.erase_cons]
    split
    · exact ih h
    · rw [applyRules, if_neg hnull, hnone]
      exact ih h
  | case4 => cases (Prod.mk.inj h).2
  | case5 task name value rest hnull rule hname task' happly ih =>
    have hne : name ≠ key := by
      rintro rfl
      rw [hasRule, hname] at hrule
      cases hrule
    rw [Keyed.erase_cons, if_neg hne, applyRules, if_neg hnull, hname]
    simp only [happly]
    exact ih h

theorem nestedFields_erase (catalog : Catalog) (model : Model) (fields : Record) (key : String) :
    catalog.nestedFields model (Keyed.erase fields key) =
      Keyed.erase (catalog.nestedFields model fields) key := by
  rw [nestedFields, nestedFields, Keyed.erase, Keyed.erase, List.filter_comm]

end Catalog

/-! ## What pruning does to a plan -/

/-- A forest without a branch nested under a key. The paths lead to the task it was nested in, and
only what this task fetches and indexes for the branch is gone with it. -/
inductive Branch.Pruned (key : String) : List (List String) → List Branch → List Branch → Prop where
  /-- What was compiled of the node was lost anyway. -/
  | lost {paths : List (List String)} {branches : List Branch} : Pruned key paths branches branches
  | among {paths : List (List String)} {branches branches' : List Branch} (before after : List Branch) :
      Pruned key paths branches branches' →
      Pruned key paths (before ++ (branches ++ after)) (before ++ (branches' ++ after))
  | inside {path : List String} {paths : List (List String)} {nested nested' : List Branch}
      {task : Task} :
      task.path.keys = path → Pruned key paths nested nested' →
      Pruned key (path :: paths) [.grow task nested] [.grow task nested']
  | here {path : List String} {first last : List Branch} {ruled : Task} {dropped : Branch} :
      ruled.path.keys = path → dropped.segment? = some key →
      Pruned key [path]
        [.grow (widen ruled (first ++ dropped :: last)).addJoinFields (first ++ dropped :: last)]
        [.grow (widen ruled (first ++ last)).addJoinFields (first ++ last)]

namespace Branch

/-- Nothing that the branches join to is different. -/
theorem Pruned.widen_eq {key : String} {paths : List (List String)} {branches branches' : List Branch}
    (h : Pruned key paths branches branches') (task : Task) :
    widen task branches = widen task branches' := by
  refine widen_congr ?_ task
  induction h with
  | lost => rfl
  | among _ _ _ ih => rw [List.map_append, List.map_append, List.map_append, List.map_append, ih]
  | inside _ _ => rfl
  | here _ _ =>
    exact congrArg (fun link => [link]) ((widen_extends ..).link.trans (widen_extends ..).link.symm)

theorem congruent_pruned (key : String) : Congruent (Pruned key) where
  lost := fun _ _ => .lost
  among := .among
  inside := .inside
  widen := Pruned.widen_eq

end Branch

theorem Record.prune_cons (nodes : Record) (name : String) (address : List String) (key : String) :
    nodes.prune (name :: address) key =
      Keyed.adjust (Json.onRecords fun fields => Record.prune fields address key) nodes name :=
  rfl

theorem Record.prune_single (name : String) (fields : Record) (address : List String) (key : String) :
    Record.prune [(name, .obj fields)] (name :: address) key =
      [(name, .obj (fields.prune address key))] := by
  rw [prune_cons, Keyed.adjust_cons, if_pos rfl]
  rfl

/-- Where no key is repeated, pruning changes the one node that the address starts with. -/
theorem Record.prune_at {before after fields : Record} {name : String}
    (h : (Json.obj (before ++ (name, .obj fields) :: after)).Distinct) (address : List String)
    (key : String) :
    Record.prune (before ++ (name, .obj fields) :: after) (name :: address) key =
      before ++ (name, .obj (fields.prune address key)) :: after := by
  rw [prune_cons, Keyed.adjust_at ((Json.distinct_obj_iff _).1 h).1]
  rfl

namespace Catalog

variable {catalog : Catalog} {parent : Option (Model × Task)} {nodes : Record} {name key : String}
  {fields : Record} {model : Model} {ruled : Task} {address : List String} {site : Site}

/-- The node that an address starts with is opened, and so are those before it. -/
theorem Reaches.exists_head (h : catalog.Reaches parent nodes address site) :
    ∃ before name fields after rest, nodes = before ++ (name, .obj fields) :: after ∧
      address = name :: rest ∧
      (∀ home, parent = some home →
        ∀ node ∈ before, ∃ found, catalog.opens (some home) node.1 node.2 = .ok found) ∧
      (∃ found, catalog.opens parent name (.obj fields) = .ok found) ∧
      catalog.Reaches parent [(name, .obj fields)] address site := by
  have halone : ∀ {name fields model start ruled},
      catalog.opens parent name (.obj fields) = .ok (model, start) →
      catalog.applyRules model start fields = (ruled, none) →
      catalog.Enters parent [(name, .obj fields)] name fields model ruled := fun hopens hrules =>
    ⟨[], [], _, rfl, fun _ _ _ hmem => (nomatch hmem), hopens, hrules⟩
  cases h with
  | here henters =>
    obtain ⟨before, after, start, rfl, hbefore, hopens, hrules⟩ := henters
    exact ⟨before, _, _, after, [], rfl, rfl, hbefore, ⟨_, hopens⟩, .here (halone hopens hrules)⟩
  | inside henters hinner =>
    obtain ⟨before, after, start, rfl, hbefore, hopens, hrules⟩ := henters
    exact ⟨before, _, _, after, _, rfl, rfl, hbefore, ⟨_, hopens⟩,
      .inside (halone hopens hrules) hinner⟩

/-- All goes well with a node: each node nested in it has a model that it is linked to. -/
theorem opened_of_fault {home : Task} (h : (catalog.compileNested model home fields).fault = none) :
    ∀ node ∈ catalog.nestedFields model fields,
      ∃ found, catalog.opens (some (model, home)) node.1 node.2 = .ok found := by
  have hnested := ((compiles_compile_and_nested catalog).2 model home fields).2 home rfl rfl
  rw [h] at hnested
  exact hnested.opened

/-- Other nodes compile to the same branches without one that is nested somewhere in them, and only
some reports are missing. -/
def PrunesTo (catalog : Catalog) (parent : Option (Model × Task)) (nodes' : Record) (key : String)
    (paths : List (List String)) (own : List String) (branches : List Branch)
    (reports : List String) : Prop :=
  ∃ branches' found found', reports = found ++ own ++ found' ∧
    catalog.Compiles parent nodes' branches' (found ++ found') ∧
    Branch.Pruned key paths branches branches'

section

variable {start : Task} {own reports : List String} {branches : List Branch} {value : Json}
  {child : Resolved} {link : Link} {paths : List (List String)}

theorem prunesTo_iff {nodes' : Record} :
    catalog.PrunesTo parent nodes' key paths own branches reports ↔
      catalog.ChangesTo (Branch.Pruned key) parent nodes' paths own [] branches reports := by
  simp [PrunesTo, ChangesTo]

/-- The node at the address itself: one branch is not nested in it any more. -/
theorem PrunesTo.here (hopens : catalog.opens parent name (.obj fields) = .ok (model, start))
    (hrules : catalog.applyRules model start fields = (ruled, none))
    (hfields : (Json.obj fields).Distinct)
    (hgrows : (catalog.compileNested model ruled fields).fault = none)
    (hkey : Keyed.get? fields key = some value) (hrule : catalog.hasRule model key = false)
    (hchild : catalog.resolveNested model key value = .ok (child, link))
    (hnode : catalog.Compiles parent [(name, .obj fields)] branches reports) :
    catalog.PrunesTo parent [(name, .obj (Keyed.erase fields key))] key [ruled.path.keys]
      (catalog.compile key child (some ruled) (some link) value).2 branches reports := by
  rcases hnode.of_ruled hopens rfl hrules with ⟨nested, rfl, hnested⟩ |
    ⟨passed, bad, inner, left, fault, -, -, hsplit, hfault, -⟩
  · -- the dropped node, among those nested beside it
    have hmem : (key, value) ∈ catalog.nestedFields model fields :=
      List.mem_filter.2 ⟨Keyed.mem_of_get? hkey, by simp [hrule]⟩
    obtain ⟨before, after, hsplit⟩ := List.append_of_mem hmem
    have hnodup : (Keyed.keys (before ++ (key, value) :: after)).Nodup :=
      hsplit ▸ ((Json.distinct_obj_iff _).1 (hfields.sublist List.filter_sublist)).1
    rw [hsplit] at hnested
    obtain ⟨first, others, found, more, rfl, rfl, hfirst, hothers⟩ := hnested.split
    obtain ⟨dropped, last, own, found', rfl, rfl, hdropped, hlast⟩ := hothers.split_cons
    have hsegment : dropped.segment? = some key := by
      simpa [Keyed.keys] using hdropped.segments
    have hopened : catalog.opens (some (model, ruled)) key value =
        .ok (child.model, .start child key (some ruled) (some link)) := by
      simp only [opens, hchild]
    have hown := (((compiles_compile_and_nested catalog).1 key child (some ruled) (some link)
      value).2 _ hopened).unique
        (hdropped.congr_parent (Branch.widen_path ..) (Branch.widen_extends ..).batch)
    obtain ⟨-, rfl⟩ := hown
    have hspared : catalog.Spares model fields (Keyed.erase fields key) :=
      ⟨(Record.confined_erase key).get? fields _ (ne_model_of_not_hasRule hrule),
        applyRules_erase hrule⟩
    have hbelow : catalog.Compiles (some (model, Branch.widen ruled (first ++ last)))
        (catalog.nestedFields model (Keyed.erase fields key)) (first ++ last) (found ++ found') := by
      rw [nestedFields_erase, hsplit, Keyed.erase_at hnodup]
      exact (hfirst.append hlast).rewiden _
    have hgrown := Compiles.grown ((hspared.opens parent name).trans hopens) rfl
      (hspared.rules hrules) hbelow .nil
    rw [List.append_nil] at hgrown
    exact ⟨_, found, found', (List.append_assoc ..).symm, hgrown, .here rfl hsegment⟩
  · obtain ⟨found, hfound⟩ := opened_of_fault hgrows _
      (hsplit ▸ List.mem_append_right _ (List.mem_cons_self ..))
    exact absurd hfound (opens_error hfault _ found)

end

/-- **A request without one nested node compiles to a plan without it**, and what is no longer
reported are the reports of this node. -/
theorem Reaches.prunesTo (h : catalog.Reaches parent nodes address site)
    (hnodes : (Json.obj nodes).Distinct)
    (hgrows : (catalog.compileNested site.model site.task site.fields).fault = none) {value : Json}
    (hkey : Keyed.get? site.fields key = some value)
    (hrule : catalog.hasRule site.model key = false) {child : Resolved} {link : Link}
    (hchild : catalog.resolveNested site.model key value = .ok (child, link))
    {branches : List Branch} {reports : List String}
    (hcompiles : catalog.Compiles parent nodes branches reports) :
    catalog.PrunesTo parent (nodes.prune address key) key site.paths
      (catalog.compile key child (some site.task) (some link) value).2 branches reports := by
  induction address generalizing parent nodes site branches reports with
  | nil => cases h
  | cons name rest ih =>
    cases h with
    | here henters =>
      obtain ⟨before, after, start, rfl, -, hopens, hrules⟩ := henters
      have hfields := ((Json.distinct_obj_iff _).1 hnodes).2 (_, .obj _)
        (List.mem_append_right before (List.mem_cons_self ..))
      rw [Record.prune_at hnodes]
      exact prunesTo_iff.2 (.among (Branch.congruent_pruned key) hcompiles fun _ _ hnode =>
        prunesTo_iff.1 (.here hopens hrules hfields hgrows hkey hrule hchild hnode))
    | @inside _ _ _ fields model ruled _ _ henters hinner =>
      obtain ⟨before, after, start, rfl, -, hopens, hrules⟩ := henters
      have hfields := ((Json.distinct_obj_iff _).1 hnodes).2 (_, .obj _)
        (List.mem_append_right before (List.mem_cons_self ..))
      obtain ⟨passed, next, inner, left, below, hsplit, rfl, hpassed, hopened, hnext⟩ :=
        hinner.exists_head
      have hdistinct : (Json.obj (passed ++ (next, .obj inner) :: left)).Distinct :=
        hsplit ▸ hfields.sublist List.filter_sublist
      have hmem : next ∈ Keyed.keys (catalog.nestedFields model fields) := by
        simp [hsplit, Keyed.keys]
      have hsplit' : catalog.nestedFields model (fields.prune (next :: below) key) =
          passed ++ (next, .obj (Record.prune inner below key)) :: left := by
        rw [Record.prune_cons, nestedFields_adjust, hsplit, ← Record.prune_cons,
          Record.prune_at hdistinct]
      rw [Record.prune_at hnodes]
      refine prunesTo_iff.2 (.among (Branch.congruent_pruned key) hcompiles fun _ _ hnode =>
        .inside (Branch.congruent_pruned key) hopens hrules
          (spares_adjust (Json.isNull_onRecords _) (not_hasRule_of_mem hmem)) hsplit hsplit'
          (hpassed _ rfl) hopened (fun _ _ hinside => prunesTo_iff.1 ?_) hnode)
      have halone := hdistinct.sublist
        ((List.cons_sublist_cons.2 (List.nil_sublist left)).trans (List.sublist_append_right ..))
      have hpruned := ih hnext halone hgrows hkey hrule hchild hinside
      rwa [Record.prune_single] at hpruned

end Catalog

end NestedQuery
