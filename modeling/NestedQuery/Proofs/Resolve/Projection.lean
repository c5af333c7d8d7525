import NestedQuery.Proofs.Plan.FieldLists
import NestedQuery.Proofs.Plan.Naming
import NestedQuery.Proofs.Resolve.Creation
import NestedQuery.Proofs.Resolve.Temporaries
/-!
# What a field list shows

A node with a field directive shows of a row what its list says, at
once: the value of each source under its alias or its own name
(`Record.Projects`). The engine takes several steps to that, and the
record is fetched with more columns than are listed, indexed, cleared of
these and renamed in place; then what is nested in the node is written
into it, and it is copied into the record of its parent. In the end
every record and every copy of one is the projection of the row it was
made from, but for the keys of nested nodes (`Engine.projects`).
-/

namespace NestedQuery

/-! ## Projections -/

/-- A record shows the listed fields of a row and nothing else, apart from what it holds under some
keys. A missing value is null under an alias, and is left out otherwise. -/
structure Record.Projects (record row : Record) (listed : List Field) (apart : List String) :
    Prop where
  nodup : (Keyed.keys record).Nodup
  aliased : ∀ field ∈ listed, ∀ name, field.alias? = some name → name ∉ apart →
    record.get? name = some ((row.get? field.source).getD .null)
  plain : ∀ field ∈ listed, field.alias? = none → field.source ∉ apart →
    record.get? field.source = row.get? field.source
  only : ∀ key ∈ Keyed.keys record, key ∉ apart → ∃ field ∈ listed, field.output = key

/-- What stands under other keys is not looked at. -/
theorem Record.Projects.apart {record record' row : Record} {listed : List Field}
    (h : Record.Projects record row listed []) (hnodup : (Keyed.keys record').Nodup)
    {apart : List String} (hsame : ∀ key, key ∉ apart → record'.get? key = record.get? key) :
    Record.Projects record' row listed apart where
  nodup := hnodup
  aliased field hmem name halias hapart := by
    rw [hsame name hapart, h.aliased field hmem name halias List.not_mem_nil]
  plain field hmem halias hapart := by
    rw [hsame _ hapart, h.plain field hmem halias List.not_mem_nil]
  only key hkey hapart := by
    rw [← Keyed.get?_isSome_iff, hsame key hapart, Keyed.get?_isSome_iff] at hkey
    exact h.only key hkey List.not_mem_nil

/-- **The final shape of what was fetched of a row is a projection of the row**, by the fields that
the task shows. -/
theorem Task.projects_finish {task : Task} {listed : List Field}
    (hlisting : ∀ fields, task.fields = some fields → Listing fields)
    (hshown : task.fields.map shown = some listed) (row : Record) :
    Record.Projects (task.finish (Record.project row task.fields)) row listed [] := by
  obtain ⟨fields, hfields, rfl⟩ := Option.map_eq_some_iff.1 hshown
  have hlisted := hlisting fields hfields
  have hview : ∀ key, (task.finish (Record.project row task.fields)).get? key =
      Keyed.get? ((shown fields).filterMap (Field.shows row)) key := by
    intro key
    rw [Task.get?_finish hlisting, Task.view, hfields]
  constructor
  · refine Task.nodup_keys_finish ?_ task
    rw [hfields]
    exact Keyed.nodup_keys_ofWrites _
  · intro field hmem name halias _
    rw [hview, hlisted.get?_shows row hmem (Field.alias_mem_names halias)]
    simp [Field.shows, halias]
  · intro field hmem halias _
    rw [hview, hlisted.get?_shows row hmem field.source_mem_names]
    cases hvalue : row.get? field.source <;> simp [Field.shows, halias, hvalue]
  · intro key hkey _
    by_contra hnone
    have hunshown : ∀ field ∈ shown fields, field.output ≠ key :=
      fun field hmem heq => hnone ⟨field, hmem, heq⟩
    have hmissing := Task.get?_view_none hfields row hunshown
    rw [← Task.get?_finish hlisting] at hmissing
    exact (Keyed.get?_eq_none_iff _ _).1 hmissing hkey

/-! ## What is written into a record -/

theorem Json.nodup_keys_writeInto {record : Record} (h : (Keyed.keys record).Nodup)
    (path : List String) (value : Json) : (Keyed.keys (writeInto record path value)).Nodup := by
  cases path with
  | nil => exact h
  | cons key rest =>
    rw [writeInto, writeBelow?_cons]
    cases written? value rest (record.get? key) with
    | none => exact h
    | some new => exact Keyed.nodup_keys_put h key new

theorem Visit.nodup_keys_stitchAll {record : Record} (h : (Keyed.keys record).Nodup) (host : Host)
    (visits : List Visit) (position : Nat) :
    (Keyed.keys (stitchAll host visits position record)).Nodup := by
  induction visits with
  | nil => exact h
  | cons visit rest ih =>
    show (Keyed.keys (visit.stitchAt host visit.final position
      (stitchAll host rest position record))).Nodup
    -- a visit writes at one path of the record, or not at all
    unfold stitchAt
    split
    · exact ih
    · split
      · exact Json.nodup_keys_writeInto ih _ _
      · exact ih

/-! ## What a query fetches -/

/-- A record that a store selects for a task, however it is joined, is fetched from a row of the
table of the task. -/
theorem Store.exists_row_of_select {store : Store} {task joined : Task} {cache : JoinCache}
    (hjoined : task.joined cache = .ok joined) {position : Nat} {record : Record}
    (h : (store.select joined).record? position = some record) :
    ∃ row, (store.touched .query joined)[position]? = some row ∧ row ∈ store.rows task.model ∧
      record = Record.project row task.fields := by
  have hbare := Task.bare_joined hjoined
  have hfields : joined.fields = task.fields :=
    show joined.bare.fields = task.bare.fields from congrArg Task.fields hbare
  have hmodel : joined.model = task.model :=
    show joined.bare.model = task.bare.model from congrArg Task.model hbare
  rw [Outcome.record?_eq, Store.rows_select, List.getElem?_map, Option.map_eq_some_iff] at h
  obtain ⟨row, hrow, rfl⟩ := h
  have htable := (Store.mem_found.1 (Store.mem_found_of_touched (List.mem_of_getElem? hrow))).1
  exact ⟨row, hrow, hmodel ▸ htable, by rw [hfields]⟩

namespace Engine

variable {engine : Engine Store} {input : Record} {place : Nat} {progress progress' : Progress}
  {store store' : Store} {visits : List Visit}

/-- A task of a query leaves the store as it is, and what comes back is what the store selects for
the task as it is joined. -/
theorem attempt_select {cache : JoinCache} {task : Task}
    {result : Except (Option Fault) Outcome} (hreads : engine.registry.Reads)
    (hserved : task.isFailed = false →
      engine.registry.executors.get? task.executor = some Store.executor)
    (h : (engine.attempt ⟨.query, engine.catalog, input, cache⟩ task).run store = (result, store')) :
    store' = store ∧ ∀ fetched, result = .ok fetched →
      ∃ joined, task.joined cache = .ok joined ∧ store.select joined = fetched := by
  obtain ⟨turn, found, left, htakes⟩ := engine.exists_takes ⟨.query, engine.catalog, input, cache⟩
    task store
  obtain ⟨rfl, rfl⟩ := Prod.mk.inj (h.symm.trans htakes.attempt_run)
  cases htakes with
  | failed | noParser => exact ⟨rfl, nofun⟩
  | refused _ hparser hparse | idle _ hparser hparse | unjoined _ hparser hparse
  | noExecutor _ hparser hparse =>
    exact ⟨(congrArg Prod.snd hparse).symm.trans (hreads hparser _ _ _), nofun⟩
  | @executed _ _ _ joined _ _ _ hfailed hparser hparse hjoined hexecutor hexecute =>
    obtain rfl := (congrArg Prod.snd hparse).symm.trans (hreads hparser _ _ _)
    obtain rfl := Option.some.inj ((hserved hfailed).symm.trans hexecutor)
    obtain ⟨rfl, rfl⟩ := Prod.mk.inj hexecute
    exact ⟨rfl, fun fetched hfetched =>
      ⟨joined, hjoined, Except.ok.inj (settle_eq_ok.1 hfetched).1⟩⟩

/-- **What a visit of a query fetched is what the store selects** for its task. -/
theorem Follows.select {branches : List Branch} (hreads : engine.registry.Reads)
    (h : engine.Follows .query input branches place progress store visits progress' store')
    (hserved : ∀ task ∈ Branch.tasksOf branches, task.isFailed = false →
      engine.registry.executors.get? task.executor = some Store.executor) :
    store' = store ∧ ∀ stop fetched nested, Visit.Occurs visits (.kept stop fetched nested) →
      ∃ joined, stop.task.joined stop.progress.cache = .ok joined ∧
        store.select joined = fetched := by
  induction h with
  | nil => exact ⟨rfl, fun _ _ _ hoccurs => absurd hoccurs Visit.occurs_nil⟩
  | missed hattempt _ ih =>
    simp only [Branch.tasksOf_node, List.mem_cons, List.mem_append] at hserved
    obtain ⟨rfl, -⟩ := attempt_select hreads (hserved _ (Or.inl rfl)) hattempt
    obtain ⟨rfl, hrest⟩ := ih fun task hmem => hserved task (Or.inr (Or.inr hmem))
    refine ⟨rfl, fun stop fetched nested hoccurs => ?_⟩
    rcases Visit.occurs_missed.1 hoccurs with heq | hoccurs
    · cases heq
    · exact hrest stop fetched nested hoccurs
  | kept hattempt _ _ ihnested ih =>
    simp only [Branch.tasksOf_node, List.mem_cons, List.mem_append] at hserved
    obtain ⟨rfl, hfetched⟩ := attempt_select hreads (hserved _ (Or.inl rfl)) hattempt
    obtain ⟨rfl, hinner⟩ := ihnested fun task hmem => hserved task (Or.inr (Or.inl hmem))
    obtain ⟨rfl, hrest⟩ := ih fun task hmem => hserved task (Or.inr (Or.inr hmem))
    refine ⟨rfl, fun stop fetched nested hoccurs => ?_⟩
    rcases Visit.occurs_kept.1 hoccurs with heq | hoccurs | hoccurs
    · cases heq
      exact hfetched _ rfl
    · exact hinner stop fetched nested hoccurs
    · exact hrest stop fetched nested hoccurs

end Engine

/-! ## The node of a visit -/

/-- A stop is one at the task of a node, and visits stand under the keys of the nodes nested in that
one. -/
def Catalog.Hosts (catalog : Catalog) (nodes : Record) (branches : List Branch) (stop : Stop)
    (nested : List Visit) : Prop :=
  ∃ resolved fields, catalog.Writes nodes branches resolved fields stop.task ∧
    ∀ visit ∈ nested, ∀ key, visit.segment? = some key →
      key ∈ Keyed.keys (catalog.nestedFields resolved.model fields)

theorem Catalog.Hosts.behind {catalog : Catalog} {nodes : Record} {branches : List Branch}
    {stop : Stop} {nested : List Visit} (h : catalog.Hosts nodes branches stop nested)
    {node : String × Json} {branch : Branch} :
    catalog.Hosts (node :: nodes) (branch :: branches) stop nested := by
  obtain ⟨resolved, fields, hwrites, hkeys⟩ := h
  exact ⟨resolved, fields, .behind hwrites, hkeys⟩

namespace Engine.Follows

variable {σ : Type} {engine : Engine σ} {operation : Operation} {input : Record}
  {branches : List Branch} {place : Nat} {progress progress' : Progress} {s s' : σ}
  {visits : List Visit}

/-- At a task that failed the walk finds nothing, and goes on behind it. -/
theorem behind_failed {failed : Task} {inner : List Branch} (hfailed : failed.isFailed = true)
    (h : engine.Follows operation input (.node failed inner :: branches) place progress s visits
      progress' s') :
    ∃ stop fault rest place₁ progress₁ s₁, visits = .missed stop fault :: rest ∧
      engine.Follows operation input branches place₁ progress₁ s₁ rest progress' s' := by
  cases h with
  | missed _ hrest => exact ⟨_, _, _, _, _, _, rfl, hrest⟩
  | kept hattempt _ _ => cases (unfailed_of_attempt hattempt).symm.trans hfailed

/-- A visit that something was fetched on is hosted by a node. -/
theorem hosts {parent : Option (Model × Task)} {nodes : Record} {reports : List String}
    (hcompiles : engine.catalog.Compiles parent nodes branches reports)
    (h : engine.Follows operation input branches place progress s visits progress' s') {stop : Stop}
    {fetched : Outcome} {nested : List Visit}
    (hoccurs : Visit.Occurs visits (.kept stop fetched nested)) :
    engine.catalog.Hosts nodes branches stop nested := by
  have hmissed : ∀ {other : Stop} {fault : Option Fault} {rest : List Visit},
      Visit.Occurs (.missed other fault :: rest) (.kept stop fetched nested) →
      Visit.Occurs rest (.kept stop fetched nested) :=
    fun hoccurs => (Visit.occurs_missed.1 hoccurs).resolve_left nofun
  -- on the derivation, as it has the nodes; the walk follows it branch by branch
  induction hcompiles generalizing place progress progress' s s' visits with
  | nil =>
    cases h
    exact absurd hoccurs Visit.occurs_nil
  | unresolved _ _ ih =>
    obtain ⟨_, _, _, _, _, _, rfl, hrest⟩ := h.behind_failed rfl
    exact (ih hrest (hmissed hoccurs)).behind
  | refused _ _ _ ih | misruled _ _ _ _ ih | broken _ _ _ _ _ _ _ _ ih =>
    obtain ⟨_, _, _, _, _, _, rfl, hrest⟩ := h.behind_failed (Branch.isFailed_fail _ _)
    exact (ih hrest (hmissed hoccurs)).behind
  | @grown _ _ _ _ _ _ fields _ _ _ _ _ hopens hvalue _ hnested _ ihnested ih =>
    obtain ⟨home, hhome, rfl, -⟩ := Catalog.resolveNode_of_opens hopens
    cases h with
    | missed _ hrest => exact (ih hrest (hmissed hoccurs)).behind
    | kept _ hinner hrest =>
      rcases Visit.occurs_kept.1 hoccurs with heq | hoccurs | hoccurs
      · cases heq
        refine ⟨home, fields, .here hhome hvalue, fun visit hvisit key hkey => ?_⟩
        obtain ⟨branch, hbranch, heq⟩ := hinner.exists_branch hvisit
        exact hnested.mem_keys hbranch (heq.trans hkey)
      · obtain ⟨resolved, inner, hwrites, hkeys⟩ := ihnested hinner hoccurs
        exact ⟨resolved, inner, .inside hhome hvalue hwrites, hkeys⟩
      · exact (ih hrest hoccurs).behind

end Engine.Follows

/-! ## The law -/

namespace Engine

/-- A run whose nodes with a field directive show what the directive lists, and nothing else. -/
structure ProjectsIn (engine : Engine Store) (request : Record) (store : Store)
    (visits : List Visit) (final : Progress) (data : Json) : Prop where
  /-- Visits are made to tasks of the plan. -/
  tasks : ∀ visit, Visit.Occurs visits visit →
    (engine.catalog.plan request).tasks[visit.stop.place]? = some visit.stop.task
  /-- The directive of a node that compiled has a field list, and each record of the node, in its
  own place or as a copy in another one, is by this list the projection of the row of the table that
  it was made from, apart from the keys of nested nodes. -/
  listed : ∀ resolved fields task,
    engine.catalog.Writes request (engine.catalog.forest request) resolved fields task →
    task.isFailed = false → ∀ key value, (key, value) ∈ fields →
    resolved.model.rule? engine.catalog.settings.keys key = some .field →
    ∃ spec listed, value = .str spec ∧ FieldList resolved.model spec listed ∧
      ∀ visit position record, visit.stop.task = task →
        Visit.Copied visits final.settled data visit position record →
        ∃ joined row, task.joined visit.stop.progress.cache = .ok joined ∧
          (store.touched .query joined)[position]? = some row ∧
          row ∈ store.rows resolved.model.name ∧
          Record.Projects record row listed
            (Keyed.keys (engine.catalog.nestedFields resolved.model fields))

/-- What a query does, and that its nodes show what they list. -/
def Projects (engine : Engine Store) (request : Record) (store : Store) : Prop :=
  ∃ visits final,
    engine.Follows .query request (engine.catalog.forest request) 0
      (.start (engine.catalog.plan request)) store visits final store ∧
    (engine.run .query request).run store =
      ({ data := collect (engine.catalog.plan request).tasks final.settled,
         errors := final.errors }, store) ∧
    engine.ProjectsIn request store visits final
      (collect (engine.catalog.plan request).tasks final.settled)

/-- What is left of a record in the end is a projection of the row that the store selected. -/
theorem Follows.projects_final {engine : Engine Store} (hstored : engine.Stored)
    (hreads : engine.registry.Reads) (haccepted : engine.catalog.Accepted) {request : Record}
    (hrequest : (Json.obj request).Distinct) {store store' : Store} {visits : List Visit}
    {final : Progress}
    (h : engine.Follows .query request (engine.catalog.forest request) 0
      (.start (engine.catalog.plan request)) store visits final store')
    {visit : Visit} (hoccurs : Visit.Occurs visits visit) {resolved : Resolved} {fields : Record}
    (hwrites : engine.catalog.Writes request (engine.catalog.forest request) resolved fields
      visit.stop.task)
    {listed : List Field} (hshown : visit.stop.task.fields.map shown = some listed) {position : Nat}
    {record : Record} (hrecord : visit.final.record? position = some record) :
    ∃ joined row, visit.stop.task.joined visit.stop.progress.cache = .ok joined ∧
      (store.touched .query joined)[position]? = some row ∧
      row ∈ store.rows resolved.model.name ∧
      Record.Projects record row listed
        (Keyed.keys (engine.catalog.nestedFields resolved.model fields)) := by
  have hcompiles := engine.catalog.compiles_forest request
  have hnodup : (Branch.tasksOf (engine.catalog.forest request)).Nodup := by
    rw [← Catalog.plan_tasks]
    exact List.Nodup.of_map _ (Catalog.nodup_full hrequest)
  cases visit with
  | missed stop fault => cases hrecord
  | kept stop fetched nested =>
    have hfailed := (h.tidy_of_kept (Catalog.tidy_forest haccepted request) hoccurs).1
    have hsound := Catalog.sound_of_unfailed haccepted hrequest stop.task
      (List.mem_of_getElem? (h.getElem?_plan hoccurs)) hfailed
    obtain ⟨joined, hjoined, hselect⟩ :=
      (h.select hreads (hstored.served request)).2 stop fetched nested hoccurs
    obtain ⟨home, body, hhome, hkeys⟩ := h.hosts hcompiles hoccurs
    -- the task stands in the plan once, so the node that hosts the visit is the one asked about
    obtain ⟨rfl, rfl⟩ := hwrites.unique hnodup hhome
    -- the record was fetched as a row of what the store selects
    rw [Visit.record?_final] at hrecord
    obtain ⟨cut, hcut, rfl⟩ := Option.map_eq_some_iff.1 hrecord
    obtain ⟨row, hrow, htable, rfl⟩ := Store.exists_row_of_select hjoined (hselect ▸ hcut)
    rw [(hcompiles.exists_ruled hrequest hhome hfailed).1] at htable
    have hprojects := Task.projects_finish (fun fields hlisted => (hsound.listing fields hlisted).1)
      hshown row
    refine ⟨joined, row, hjoined, hrow, htable, ?_⟩
    exact hprojects.apart (Visit.nodup_keys_stitchAll hprojects.nodup _ _ _) fun key hkey =>
      Visit.get?_stitchAll_ne (fun visit hvisit hsegment => hkey (hkeys visit hvisit key hsegment)) _

/-- **A field list determines the records**: whatever is fetched for joins, and however the records
are put together, a node with a field directive shows of each row what the directive lists. -/
theorem projects {engine : Engine Store} (hstored : engine.Stored)
    (hreads : engine.registry.Reads) (haccepted : engine.catalog.Accepted) {request : Record}
    (hrequest : (Json.obj request).Distinct) (store : Store) : engine.Projects request store := by
  obtain ⟨visits, final, store', hfollows, hrun⟩ := run_settled engine .query request store
  obtain ⟨rfl, -⟩ := hfollows.select hreads (hstored.served request)
  refine ⟨visits, final, hfollows, hrun, fun visit => hfollows.getElem?_plan,
    fun resolved fields task hwrites hfailed key value hfield hrule => ?_⟩
  obtain ⟨spec, listed, hvalue, hlist, hshown⟩ :=
    (engine.catalog.compiles_forest request).lists hrequest hwrites hfailed hfield hrule
  refine ⟨spec, listed, hvalue, hlist, ?_⟩
  rintro visit position record rfl hcopied
  rw [hfollows.collect_visits] at hcopied
  exact hfollows.projects_final hstored hreads haccepted hrequest hcopied.occurs hwrites hshown
    (hfollows.record?_of_copied hrequest hcopied)

end Engine

namespace Library

/-- Authors by label and number, and the headings of their books, whose titles are not known. -/
def labels : Record :=
  [("authors", .obj [("@field", .str "name: label, id"),
    ("books", .obj [("@field", .str "title:heading")])])]

end Library

/-- Authors and books are shown as they are listed; what the books join by is not there. -/
theorem Engine.projects_library : (ofCatalog Library.catalog).Stored ∧
    (ofCatalog Library.catalog).registry.Reads ∧ (Json.obj Library.labels).Distinct ∧
    ((ofCatalog Library.catalog).run .query Library.labels).run Library.stocked =
      (⟨.obj [("authors", .arr [
        .obj [("id", .ofNat 1), ("label", .str "Ann"), ("books", .arr [.obj [("heading", .null)]])],
        .obj [("label", .str "Bob")]])], []⟩, Library.stocked) ∧
    (ofCatalog Library.catalog).Projects Library.labels Library.stocked := by
  have hdistinct : (Json.obj Library.labels).Distinct := by
    simp [Library.labels, Json.Distinct, Json.DistinctFields, Keyed.keys]
  have hstored := stored_ofCatalog Library.inMemory
  have hreads : (ofCatalog Library.catalog).registry.Reads := reads_ofCatalog Library.catalog
  refine ⟨hstored, hreads, hdistinct, ?_,
    projects hstored hreads Library.accepted hdistinct Library.stocked⟩
  cbv

end NestedQuery
