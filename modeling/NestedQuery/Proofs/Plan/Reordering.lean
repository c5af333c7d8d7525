import NestedQuery.Proofs.Plan.Edits
import NestedQuery.Proofs.Plan.Pruning
import NestedQuery.Proofs.Schema.Accepted
/-!
# The order of the keys in a node

Where nothing goes wrong, a node may have its keys in any order, as long
as those that name nested nodes keep theirs (`Catalog.Rearranged`). The
rules do not mind the order (`Catalog.applyRules_perm`), and they come
before anything nested is read, so that the path is final by then; what
the nested nodes join on is added in their own order. Hence the tasks
are the same, and so are their counts (`Catalog.ignores_order`).

With errors the order counts: the rules stop at the first fault, which
is the one that is reported.
-/

namespace NestedQuery

open scoped List

/-! ## Look-ups -/

namespace Keyed

variable {α : Type} {entries entries' : Keyed α} {key : String}

/-- A look-up does not mind the order of keys that are not repeated. -/
theorem get?_perm (hperm : entries ~ entries') (hnodup : (keys entries).Nodup) :
    get? entries' key = get? entries key := by
  have hnodup' : (keys entries').Nodup := (hperm.map Prod.fst).nodup hnodup
  refine Option.ext fun value => ?_
  constructor
  · exact fun h => get?_of_mem hnodup (hperm.mem_iff.2 (mem_of_get? h))
  · exact fun h => get?_of_mem hnodup' (hperm.mem_iff.1 (mem_of_get? h))

/-- A look-up does not mind what is left out under other keys. -/
theorem get?_filter {p : String × α → Bool} (hp : ∀ value, p (key, value) = true) :
    get? (entries.filter p) key = get? entries key := by
  induction entries with
  | nil => rfl
  | cons entry rest ih =>
    obtain ⟨name, value⟩ := entry
    by_cases heq : name = key
    · subst heq
      rw [List.filter_cons_of_pos (hp value), get?_cons, get?_cons, if_pos rfl, if_pos rfl]
    · rw [get?_cons, if_neg heq, ← ih, List.filter_cons]
      split
      · rw [get?_cons, if_neg heq]
      · rfl

end Keyed

/-! ## Nodes with their keys in another order -/

namespace Catalog

/-- The fields of a node that have a rule. -/
def ruledFields (catalog : Catalog) (model : Model) (fields : Record) : Record :=
  fields.filter fun field => catalog.hasRule model field.1

/-- The same nodes under the same keys, each with its own keys in another order, at any depth. -/
inductive Rearranged (catalog : Catalog) : Record → Record → Prop where
  | nil : Rearranged catalog [] []
  /-- Inside a node the keys with a rule may stand anywhere; the others keep their order, and the
  nodes under them may be rearranged too. -/
  | node {key : String} {fields fields' rest rest' : Record} {resolved : Resolved} :
      catalog.resolveNode key (.obj fields) = .ok resolved →
      catalog.ruledFields resolved.model fields ~ catalog.ruledFields resolved.model fields' →
      Rearranged catalog (catalog.nestedFields resolved.model fields)
        (catalog.nestedFields resolved.model fields') →
      Rearranged catalog rest rest' →
      Rearranged catalog ((key, .obj fields) :: rest) ((key, .obj fields') :: rest')
  /-- A node may stay as it is. -/
  | same {node : String × Json} {rest rest' : Record} :
      Rearranged catalog rest rest' → Rearranged catalog (node :: rest) (node :: rest')

variable {catalog : Catalog} {model : Model} {task ruled : Task} {nodes nodes' fields fields' : Record}

theorem Rearranged.refl (catalog : Catalog) (nodes : Record) : catalog.Rearranged nodes nodes := by
  induction nodes with
  | nil => exact .nil
  | cons node rest ih => exact .same ih

/-- The keys of a single node may be permuted, if those without a rule keep their order. -/
theorem Rearranged.of_perm {key : String} {resolved : Resolved} {rest : Record}
    (hnode : catalog.resolveNode key (.obj fields) = .ok resolved) (hperm : fields ~ fields')
    (hnested : catalog.nestedFields resolved.model fields' =
      catalog.nestedFields resolved.model fields) :
    catalog.Rearranged ((key, .obj fields) :: rest) ((key, .obj fields') :: rest) :=
  .node hnode (hperm.filter _) (hnested ▸ .refl catalog _) (.refl catalog rest)

/-- No node becomes null. -/
theorem Rearranged.isNull (h : catalog.Rearranged nodes nodes')
    (hnodes : ∀ node ∈ nodes, node.2.isNull = false) : ∀ node ∈ nodes', node.2.isNull = false := by
  induction h with
  | nil => exact hnodes
  | node _ _ _ _ _ ih => exact List.forall_mem_cons.2 ⟨rfl, ih (List.forall_mem_cons.1 hnodes).2⟩
  | same _ ih =>
    obtain ⟨hnode, hrest⟩ := List.forall_mem_cons.1 hnodes
    exact List.forall_mem_cons.2 ⟨hnode, ih hrest⟩

/-! ## What is read of a node -/

/-- The rules look at the fields that have one, and at the others only for null. -/
theorem applyRules_iff : catalog.applyRules model task fields = (ruled, none) ↔
    (∀ field ∈ catalog.nestedFields model fields, field.2.isNull = false) ∧
      catalog.applyRules model task (catalog.ruledFields model fields) = (ruled, none) := by
  induction fields generalizing task with
  | nil => simp [nestedFields, ruledFields]
  | cons field rest ih =>
    rw [applyRules_cons_iff]
    cases hrule : catalog.hasRule model field.1 with
    | true =>
      have hruled : catalog.ruledFields model (field :: rest) =
          field :: catalog.ruledFields model rest := List.filter_cons_of_pos hrule
      have hnested : catalog.nestedFields model (field :: rest) = catalog.nestedFields model rest :=
        List.filter_cons_of_neg (by simp [hrule])
      rw [hruled, hnested, applyRules_cons_iff]
      simp only [ih]
      constructor
      · rintro ⟨mid, hpasses, hnull, hrest⟩
        exact ⟨hnull, mid, hpasses, hrest⟩
      · rintro ⟨hnull, mid, hpasses, hrest⟩
        exact ⟨mid, hpasses, hnull, hrest⟩
    | false =>
      have hruled : catalog.ruledFields model (field :: rest) = catalog.ruledFields model rest :=
        List.filter_cons_of_neg (by simp [hrule])
      have hnested : catalog.nestedFields model (field :: rest) =
          field :: catalog.nestedFields model rest := List.filter_cons_of_pos (by simp [hrule])
      have hnone : model.rule? catalog.settings.keys field.1 = none := by
        simpa [hasRule] using hrule
      rw [hruled, hnested, List.forall_mem_cons]
      simp only [Passes, hnone, ih]
      constructor
      · rintro ⟨mid, ⟨hnull, rfl⟩, hrest, happly⟩
        exact ⟨⟨hnull, hrest⟩, happly⟩
      · rintro ⟨⟨hnull, hrest⟩, happly⟩
        exact ⟨task, ⟨hnull, rfl⟩, hrest, happly⟩

/-- The model directive has a rule, whatever the model. -/
theorem get?_ruledFields (catalog : Catalog) (model : Model) (fields : Record) :
    Keyed.get? (catalog.ruledFields model fields) catalog.settings.keys.model =
      Keyed.get? fields catalog.settings.keys.model := by
  refine Keyed.get?_filter fun value => ?_
  by_contra hrule
  exact ne_model_of_not_hasRule (Bool.not_eq_true _ ▸ hrule) rfl

/-! ## Compiling -/

variable {parent : Option (Model × Task)} {branches : List Branch} {reports : List String}

/-- **Rearranged nodes compile to the same branches**, if nothing was reported. -/
theorem Compiles.rearranged (h : catalog.Compiles parent nodes branches reports)
    (hreports : reports = []) (hnodes : (Json.obj nodes).Distinct)
    (hsame : catalog.Rearranged nodes nodes') : catalog.Compiles parent nodes' branches [] := by
  induction h generalizing nodes' with
  | nil =>
    cases hsame
    exact .nil
  | unresolved | refused | misruled => cases hreports
  | broken =>
    obtain ⟨-, hreport⟩ := List.append_eq_nil_iff.1 hreports
    cases hreport
  | @grown _ _ _ _ start ruled _ _ _ _ _ _ hopens hvalue hrules hnested _ ihnested ih =>
    obtain ⟨rfl, rfl⟩ := List.append_eq_nil_iff.1 hreports
    have hrest := hnodes.sublist (List.sublist_cons_self ..)
    cases hsame with
    | same hsame =>
      have hgrown := Compiles.grown hopens hvalue hrules hnested (ih rfl hrest hsame)
      exact hgrown
    | @node _ fields fields' _ _ resolved hnode hperm hinner hsame =>
      obtain rfl := Option.some.inj hvalue
      obtain ⟨found, hfound, rfl, -⟩ := resolveNode_of_opens hopens
      obtain rfl := Except.ok.inj (hnode.symm.trans hfound)
      have hfields : (Json.obj fields).Distinct :=
        ((Json.distinct_obj_iff _).1 hnodes).2 _ (List.mem_cons_self ..)
      have hruledNodup : (Keyed.keys (catalog.ruledFields resolved.model fields)).Nodup :=
        ((Json.distinct_obj_iff _).1 (hfields.sublist List.filter_sublist)).1
      have hmodel : (Json.obj fields').get? catalog.settings.keys.model =
          (Json.obj fields).get? catalog.settings.keys.model := by
        show Keyed.get? fields' _ = Keyed.get? fields _
        rw [← get?_ruledFields catalog resolved.model fields,
          ← get?_ruledFields catalog resolved.model fields', Keyed.get?_perm hperm hruledNodup]
      obtain ⟨hnull, hruled⟩ := applyRules_iff.1 hrules
      have hrules' : catalog.applyRules resolved.model start fields' = (ruled, none) :=
        applyRules_iff.2 ⟨hinner.isNull hnull, applyRules_perm hperm hruledNodup hruled⟩
      have hgrown := Compiles.grown ((opens_congr_value hmodel).trans hopens) rfl hrules'
        (ihnested rfl (hfields.sublist List.filter_sublist) hinner) (ih rfl hrest hsame)
      exact hgrown

/-- **The order of keys makes no difference to a request without errors**: rearranged, it compiles to
the same tasks and to no errors either. -/
theorem ignores_order (catalog : Catalog) {request request' : Record}
    (hrequest : (Json.obj request).Distinct) (herrors : (catalog.plan request).errors = [])
    (h : catalog.Rearranged request request') :
    (catalog.plan request').errors = [] ∧ (catalog.plan request').tasks = (catalog.plan request).tasks := by
  have hcompiles := (compiles_forest catalog request).rearranged herrors hrequest h
  obtain ⟨hforest, herrors'⟩ := hcompiles.unique (compiles_forest catalog request')
  exact ⟨herrors', by rw [plan_tasks, plan_tasks, hforest]⟩

end Catalog

namespace Library

/-- A page of the books with one title, by number, below the names of authors on a page. -/
def titled : Record :=
  [("authors", .obj [("@pagination", .bool true), ("books", .obj [("title", .str "Ash"),
    ("@sort", .str "id"), ("@pagination", .bool true)]), ("@field", .str "name")])]

/-- The same with the keys in another order, at both depths. -/
def retitled : Record :=
  [("authors", .obj [("@field", .str "name"), ("books", .obj [("@pagination", .bool true),
    ("@sort", .str "id"), ("title", .str "Ash")]), ("@pagination", .bool true)])]

end Library

/-- The path of the books goes through the page of their authors, wherever the page stands. -/
theorem Catalog.ignores_order_library :
    ((Json.obj Library.titled).Distinct ∧ (Library.catalog.plan Library.titled).errors = [] ∧
      Library.catalog.Rearranged Library.titled Library.retitled) ∧
    (Library.catalog.plan Library.retitled).tasks.map (fun task => task.path.full) =
      [["authors", "pagination"], ["authors", "pagination", "books", "pagination"]] ∧
    (Library.catalog.plan Library.retitled).errors = [] ∧
      (Library.catalog.plan Library.retitled).tasks = (Library.catalog.plan Library.titled).tasks := by
  have hdistinct : (Json.obj Library.titled).Distinct := by
    simp [Library.titled, Keyed.keys, Json.Distinct, Json.DistinctFields]
  have herrors : (Library.catalog.plan Library.titled).errors = [] := by decide +kernel
  have hbooks : [("title", Json.str "Ash"), ("@sort", .str "id"), ("@pagination", .bool true)] ~
      [("@pagination", .bool true), ("@sort", .str "id"), ("title", .str "Ash")] :=
    (List.reverse_perm _).symm
  have hrearranged : Library.catalog.Rearranged Library.titled Library.retitled :=
    .node (rfl : Library.catalog.resolveNode "authors" _ = .ok ⟨Library.author, true⟩)
      (List.Perm.swap _ _ _)
      (.of_perm (rfl : Library.catalog.resolveNode "books" _ = .ok ⟨Library.book, true⟩) hbooks rfl)
      .nil
  exact ⟨⟨hdistinct, herrors, hrearranged⟩, by decide +kernel,
    ignores_order Library.catalog hdistinct herrors hrearranged⟩

end NestedQuery
