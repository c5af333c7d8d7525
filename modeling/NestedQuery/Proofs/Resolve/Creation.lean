import NestedQuery.Proofs.Json.Leaves
import NestedQuery.Proofs.Resolve.Honoured
/-!
# What a creation stores

A request to create makes one row for each node it reaches, out of the
filter of the node's task. What the node writes in its columns is in the
row, value for value, and fits the types of the columns; but a filter
holds one constraint a column, and the one by which a nested node joins
its parent is taken from the row made for the parent
(`Engine.creates`). What the node itself writes there is lost
(`Engine.not_creates_as_written`).
-/

namespace NestedQuery

/-! ## From values to rows -/

/-- Whether a value fits a column of a type: it is of the type, or, in a group, a list of such. -/
def ColumnType.fits (type : ColumnType) (isGroup : Bool) (value : Json) : Bool :=
  match value, isGroup with
  | .arr items, true => items.all fun item => (type.accept? item).isSome
  | other, _ => (type.accept? other).isSome

namespace ColumnType

variable {type : ColumnType} {isGroup : Bool} {written : Json} {constraint : Constraint}

theorem toJson_of_accept? (h : type.accept? written = some constraint) :
    constraint.toJson = written := by
  cases type <;> cases written <;> cases h <;> simp [Constraint.toJson]

/-- Each item of a list that is read as one of several is of the type, and comes back as it was. -/
theorem toJsons_of_mapM {items : List Json} {constraints : List Constraint}
    (h : items.mapM type.accept? = some constraints) :
    Constraint.toJsons constraints = items ∧ ∀ item ∈ items, (type.accept? item).isSome := by
  induction items generalizing constraints with
  | nil =>
    obtain rfl := Option.some.inj h
    simp [Constraint.toJsons]
  | cons item rest ih =>
    rw [List.mapM_cons] at h
    obtain ⟨first, hfirst, h⟩ := Option.bind_eq_some_iff.1 h
    obtain ⟨others, hothers, h⟩ := Option.bind_eq_some_iff.1 h
    obtain rfl := Option.some.inj h
    obtain ⟨hback, hitems⟩ := ih hothers
    refine ⟨?_, List.forall_mem_cons.2 ⟨by rw [hfirst]; rfl, hitems⟩⟩
    rw [Constraint.toJsons, toJson_of_accept? hfirst, hback]

/-- **What a value is read as writes the value**, and the value fits. -/
theorem toJson_of_read? (h : type.read? isGroup written = some constraint) :
    constraint.toJson = written ∧ type.fits isGroup written = true := by
  have haccept : ∀ {value : Json}, type.accept? value = some constraint →
      constraint.toJson = value ∧ (type.accept? value).isSome = true :=
    fun haccepted => ⟨toJson_of_accept? haccepted, by rw [haccepted]; rfl⟩
  cases isGroup with
  | false => cases written <;> exact haccept h
  | true =>
    cases written with
    | arr items =>
      obtain ⟨constraints, hconstraints, rfl⟩ := Option.map_eq_some_iff.1 h
      obtain ⟨hback, hitems⟩ := toJsons_of_mapM hconstraints
      exact ⟨by rw [Constraint.toJson, hback], List.all_eq_true.2 hitems⟩
    | _ => exact haccept h

end ColumnType

/-- A new row has what the filter of its task constrains, each value as the constraint writes it. -/
theorem Task.get?_newRow (task : Task) (column : String) :
    task.newRow.get? column = (task.constraint? column).map Constraint.toJson := by
  unfold newRow constraint?
  cases task.filter with
  | none => rfl
  | some filter =>
    exact Keyed.get?_mapEntries (fun _ constraint => constraint.toJson) filter.entries column

/-- What the row of a nested node takes over from the row of its parent: the value there, or a list
of it if the parent may stand for several records; and an empty list where there is none. -/
def Link.inherited (link : Link) (isBatch : Bool) (parent : Record) : Json :=
  let key? := parent.get? link.referencedKey
  if isBatch then .arr (Json.takenAll key?.toList) else (key?.bind Json.taken?).getD (.arr [])

/-- **The join constraint to a row that was just made writes what is taken over from it.** -/
theorem Task.toJson_hostConstraint {task : Task} {link : Link} {host : Host} {row : Record}
    (hbatch : task.batch.underBatch = host.task.batch.isBatch)
    (hfetched : host.fetched = if host.task.batch.isBatch then .records [row] else .record row) :
    (task.hostConstraint link host).toJson = link.inherited host.task.batch.isBatch row := by
  unfold hostConstraint Link.inherited
  rw [hbatch, hfetched]
  cases host.task.batch.isBatch with
  | true =>
    have hkeys : (JoinIndex.ofOutcome (.records [row]) link.referencedKey).keys =
        (row.get? link.referencedKey).toList := by
      rw [JoinIndex.keys, JoinIndex.entries_ofOutcome]
      show (JoinIndex.scan link.referencedKey 0 [row]).map Prod.fst = _
      rw [JoinIndex.scan_cons]
      cases row.get? link.referencedKey <;> rfl
    simp only [if_true, hkeys, Constraint.anyOfKeys, Constraint.toJson,
      Constraint.toJsons_ofKeys]
  | false =>
    simp only [Bool.false_eq_true, if_false, JoinIndex.single?_ofOutcome]
    cases hkey : row.get? link.referencedKey with
    | none => rfl
    | some key =>
      rw [Option.bind_some, Option.bind_some, ← Constraint.map_toJson_ofKey?]
      cases Constraint.ofKey? key <;> rfl

/-! ## Rows and tables -/

/-- No parser changes the state. -/
def Registry.Reads {σ : Type} (registry : Registry σ) : Prop :=
  ∀ {id : String} {parser : Parser σ}, registry.parsers.get? id = some parser →
    ∀ (context : Context) (task : Task) (s : σ), ((parser context task).run.run s).2 = s

theorem Engine.reads_ofCatalog (catalog : Catalog) : (ofCatalog catalog).registry.Reads := by
  intro id parser hparser context task s
  rw [get?_parsers_ofCatalog] at hparser
  split at hparser
  · obtain rfl := Option.some.inj hparser
    rfl
  · cases hparser

/-- The rows that calls make for a model, in the order of the calls. -/
def Store.made (model : String) (calls : List (ExecutorCall Store)) : List Record :=
  (calls.filter fun call => call.task.model = model).map fun call => call.task.newRow

theorem Store.made_append (model : String) (calls more : List (ExecutorCall Store)) :
    made model (calls ++ more) = made model calls ++ made model more := by
  simp [made]

namespace Engine

variable {engine : Engine Store}

/-- One task: its executor makes a row, and nothing else happens to the tables. -/
theorem Takes.rows_create {input : Record} {cache : JoinCache} {task : Task} {s s' : Store}
    {turn : List (Call Store)} {result : Except (Option Fault) Outcome}
    (h : engine.Takes ⟨.create, engine.catalog, input, cache⟩ task s turn result s')
    (hreads : engine.registry.Reads)
    (hserved : task.isFailed = false →
      engine.registry.executors.get? task.executor = some Store.executor) (model : String) :
    s'.rows model = s.rows model ++ Store.made model (turn.filterMap Call.executor?) := by
  cases h with
  | failed | noParser => exact (List.append_nil _).symm
  | refused _ hparser hparse | idle _ hparser hparse | unjoined _ hparser hparse
  | noExecutor _ hparser hparse =>
    obtain rfl := (congrArg Prod.snd hparse).symm.trans (hreads hparser _ _ _)
    exact (List.append_nil _).symm
  | @executed _ _ _ joined _ _ _ hfailed hparser hparse _ hexecutor hexecute =>
    obtain rfl := (congrArg Prod.snd hparse).symm.trans (hreads hparser _ _ _)
    obtain rfl := Option.some.inj ((hserved hfailed).symm.trans hexecutor)
    obtain rfl : (_ : Store).append joined.model [joined.newRow] = s' := congrArg Prod.snd hexecute
    rw [Store.append, Store.rows_setRows]
    simp only [List.filterMap_cons, Call.executor?, List.filterMap_nil, Store.made,
      List.filter_cons, List.filter_nil, decide_eq_true_eq]
    split
    · next heq => rw [heq]; rfl
    · exact (List.append_nil _).symm

/-- **A run adds to each table the rows of its calls**, in order. -/
theorem rows_run_create (hstored : engine.Stored) (hreads : engine.registry.Reads)
    (request : Record) (store : Store) (model : String) :
    (((engine.run .create request).run store).2).rows model =
      store.rows model ++ Store.made model (engine.executions .create request store) := by
  have hchains : Chains fun calls (before after : Store) =>
      after.rows model = before.rows model ++ Store.made model calls :=
    { refl := fun s => (List.append_nil _).symm
      trans := fun hfirst hrest => by rw [hrest, hfirst, Store.made_append, List.append_assoc] }
  refine run_chains hchains .create request store fun task hmem _ _ _ _ _ htakes => ?_
  rw [Catalog.plan_tasks] at hmem
  exact htakes.rows_create hreads (hstored.served request task hmem) model

end Engine

/-! ## The law of creation -/

/-- The column that a key is in a model: the one declared last under it. -/
def Model.declared? (model : Model) (key : String) : Option Column :=
  model.columns.reverse.find? fun column => column.key = key

/-- A key that has the rule of a column is a column of that type. -/
theorem Model.exists_declared {model : Model} {keys : DirectiveKeys} {key : String}
    {type : ColumnType} (h : model.rule? keys key = some (.column type)) :
    ∃ column, model.declared? key = some column ∧ column.type = type :=
  (Model.exists_column h).2

namespace Engine

/-- What a request to create leaves in the tables. -/
structure Creates (engine : Engine Store) (request : Record) (store : Store) : Prop where
  /-- Behind what was there, a table has the rows of the calls for its model, in order. -/
  tables : ∀ model, (((engine.run .create request).run store).2).rows model =
    store.rows model ++ Store.made model (engine.executions .create request store)
  /-- Every call is for the task of a node, and makes a row of the node's model. -/
  nodes : ∀ call ∈ engine.executions .create request store, ∃ resolved fields task,
    engine.catalog.Writes request (engine.catalog.forest request) resolved fields task ∧
      call.For task ∧ call.task.model = resolved.model.name
  /-- But for the column to join by, the row has what the node writes in its columns, and nothing
  else. -/
  given : ∀ resolved fields task,
    engine.catalog.Writes request (engine.catalog.forest request) resolved fields task →
    ∀ call ∈ engine.executions .create request store, call.For task →
    ∀ column, ¬ task.JoinsBy column → ∀ value, call.task.newRow.get? column = some value ↔
      (column, value) ∈ fields ∧
        ∃ type, resolved.model.rule? engine.catalog.settings.keys column = some (.column type)
  /-- What it has there fits the type of the column. -/
  typed : ∀ resolved fields task,
    engine.catalog.Writes request (engine.catalog.forest request) resolved fields task →
    ∀ call ∈ engine.executions .create request store, call.For task →
    ∀ key column, resolved.model.declared? key = some column → ¬ task.JoinsBy key →
    ∀ value, call.task.newRow.get? key = some value → column.type.fits resolved.isGroup value = true
  /-- In the column to join by it has what it takes over from the row that was made for its
  parent. -/
  joined : ∀ call ∈ engine.executions .create request store, call.task.isNested = true →
    ∃ parent child link, Branch.Nests (engine.catalog.forest request) parent child ∧
      call.For child ∧ child.link = some link ∧
      ∃ above ∈ engine.executions .create request store, above.For parent ∧
        call.task.newRow.get? link.localKey =
          some (link.inherited parent.batch.isBatch above.task.newRow)

namespace Tour

variable {engine : Engine Store} {request : Record} {store : Store} {visits : List Visit}
  {turns : List (Visit × List (Call Store))} {call : ExecutorCall Store}

/-- The row of a node holds what its task is constrained to, but for the column to join by. -/
theorem get?_newRow_of_writes (h : engine.Tour .create request store visits turns)
    (hstored : engine.Stored) (hrequest : (Json.obj request).Distinct) {resolved : Resolved}
    {fields : Record} {task : Task}
    (hwrites : engine.catalog.Writes request (engine.catalog.forest request) resolved fields task)
    (hcall : call ∈ engine.executions .create request store) (hfor : call.For task) :
    task.isFailed = false ∧ ∀ column, ¬ task.JoinsBy column →
      call.task.newRow.get? column = (task.constraint? column).map Constraint.toJson := by
  obtain ⟨hfailed, cache, hjoined⟩ := h.joined_of_writes hstored hrequest hwrites hcall hfor
  refine ⟨hfailed, fun column hspared => ?_⟩
  rw [Task.get?_newRow, Task.constraint?_joined hjoined hspared]

/-- The row of a nested node takes the column to join by over from the row that was made for its
parent before. -/
theorem exists_inherited (h : engine.Tour .create request store visits turns) (hstored : engine.Stored)
    (hcall : call ∈ engine.executions .create request store) (hnested : call.task.isNested = true) :
    ∃ parent child link, Branch.Nests (engine.catalog.forest request) parent child ∧
      call.For child ∧ child.link = some link ∧
      ∃ above ∈ engine.executions .create request store, above.For parent ∧
        call.task.newRow.get? link.localKey =
          some (link.inherited parent.batch.isBatch above.task.newRow) := by
  obtain ⟨x, hx, hturn⟩ := h.mem_executions.1 hcall
  obtain ⟨s₁, s₂, htakes⟩ := h.takes x hx
  have hfor := htakes.for_of_execution hturn
  have hbare : call.task.bare.isNested = x.1.stop.task.bare.isNested := by rw [hfor.2]
  obtain ⟨host, y, hy, htask, hresult, hnests, hbelow, hholds⟩ :=
    h.exists_host hx (hbare.symm.trans hnested)
  obtain ⟨link, hlink, -, hcolumn, -⟩ := hbelow.link
  -- the parent was called on its own turn, and its row is what it came back with
  obtain ⟨t₁, t₂, htakesParent⟩ := h.takes y hy
  obtain ⟨above, habove, hyields⟩ := htakesParent.result_iff.1 hresult
  have hparent : above.For host.task := htask ▸ htakesParent.for_of_execution habove
  refine ⟨host.task, x.1.stop.task, link, hnests, hfor, hlink, above,
    h.mem_executions.2 ⟨y, hy, habove⟩, hparent, ?_⟩
  have hexecute := congrArg Prod.fst (h.execute_eq hstored hy habove).2
  have houtcome : (if above.task.batch.isBatch then Outcome.records [above.task.newRow]
      else .record above.task.newRow) = host.fetched :=
    Except.ok.inj (hexecute.trans hyields.1)
  have hbatch : above.task.bare.batch = host.task.bare.batch := by rw [hparent.2]
  have hisBatch : above.task.batch.isBatch = host.task.batch.isBatch :=
    congrArg Batch.isBatch hbatch
  rw [hisBatch] at houtcome
  have hjoined := (Visit.joinsTo_of_holds hholds hbelow hlink hcolumn).joined
  have hsame := Except.ok.inj ((h.execute_eq hstored hx hturn).1.symm.trans hjoined)
  rw [Task.get?_newRow, hsame, Task.constraint?_constrain, if_pos rfl, Option.map_some,
    Task.toJson_hostConstraint hbelow.underBatch houtcome.symm]

end Tour

/-- **A creation stores what a node asks for**, but for the column by which the node joins its
parent, which is taken over from the parent's row. -/
theorem creates {engine : Engine Store} (hstored : engine.Stored) (hreads : engine.registry.Reads)
    {request : Record} (hrequest : (Json.obj request).Distinct) (store : Store) :
    engine.Creates request store := by
  obtain ⟨visits, turns, htour⟩ := engine.exists_tour .create request store
  have hcompiles := engine.catalog.compiles_forest request
  refine ⟨rows_run_create hstored hreads request store, fun call hmem => ?_,
    fun resolved fields task hwrites call hmem hfor column hspared value => ?_,
    fun resolved fields task hwrites call hmem hfor key column hdeclared hspared value hvalue => ?_,
    fun call hmem hnested => htour.exists_inherited hstored hmem hnested⟩
  · obtain ⟨resolved, fields, task, hwrites, hfor⟩ := htour.exists_writes hmem
    obtain ⟨hfailed, -⟩ := htour.get?_newRow_of_writes hstored hrequest hwrites hmem hfor
    have hmodel : call.task.bare.model = task.bare.model := by rw [hfor.2]
    exact ⟨resolved, fields, task, hwrites, hfor,
      hmodel.trans (hcompiles.exists_ruled hrequest hwrites hfailed).1⟩
  · obtain ⟨hfailed, hget⟩ := htour.get?_newRow_of_writes hstored hrequest hwrites hmem hfor
    rw [hget column hspared, Option.map_eq_some_iff]
    constructor
    · rintro ⟨constraint, hconstraint, rfl⟩
      obtain ⟨value, type, hfield, hrule, hread⟩ :=
        hcompiles.written hrequest hwrites hfailed hconstraint
      rw [(ColumnType.toJson_of_read? hread).1]
      exact ⟨hfield, type, hrule⟩
    · rintro ⟨hfield, type, hrule⟩
      obtain ⟨constraint, hconstraint, hread⟩ :=
        hcompiles.reads hrequest hwrites hfailed hfield hrule
      exact ⟨constraint, hconstraint, (ColumnType.toJson_of_read? hread).1⟩
  · obtain ⟨hfailed, hget⟩ := htour.get?_newRow_of_writes hstored hrequest hwrites hmem hfor
    rw [hget key hspared, Option.map_eq_some_iff] at hvalue
    obtain ⟨constraint, hconstraint, rfl⟩ := hvalue
    obtain ⟨value, type, -, hrule, hread⟩ :=
      hcompiles.written hrequest hwrites hfailed hconstraint
    obtain ⟨other, hother, rfl⟩ := Model.exists_declared hrule
    obtain rfl := Option.some.inj (hdeclared.symm.trans hother)
    obtain ⟨hback, hfits⟩ := ColumnType.toJson_of_read? hread
    rwa [hback]

end Engine

namespace Engine

/-- The book gets the number of the author it was asked for under, not the one that the request
gives it. -/
theorem creates_library : (ofCatalog Library.catalog).Stored ∧
    (ofCatalog Library.catalog).registry.Reads ∧ (Json.obj Library.strayed).Distinct ∧
    (Json.arr (((((ofCatalog Library.catalog).run .create Library.strayed).run {}).2.rows
      "book").map .obj)).same (.arr [.obj [("author_id", .ofNat 1), ("id", .ofNat 7)]]) = true ∧
    (ofCatalog Library.catalog).Creates Library.strayed {} :=
  ⟨stored_ofCatalog Library.inMemory, reads_ofCatalog Library.catalog, Library.strayed_distinct,
    by decide +kernel, creates (stored_ofCatalog Library.inMemory)
      (reads_ofCatalog Library.catalog) Library.strayed_distinct {}⟩

/-- Whatever is created in a catalog in memory, something holds of each node, its task and the call
that makes its row. -/
def EveryRow (holds : Catalog → Resolved → Record → Task → ExecutorCall Store → Prop) : Prop :=
  ∀ (catalog : Catalog) (request : Record) (store : Store), catalog.InMemory →
    (Json.obj request).Distinct → ∀ resolved fields task,
    catalog.Writes request (catalog.forest request) resolved fields task →
    ∀ call ∈ (ofCatalog catalog).executions .create request store, call.For task →
    holds catalog resolved fields task call

/-- It is enough to see one call, told by the path of its task. -/
theorem EveryRow.exists_call {holds : Catalog → Resolved → Record → Task → ExecutorCall Store → Prop}
    (h : EveryRow holds) {catalog : Catalog} (hmemory : catalog.InMemory) {request : Record}
    (hrequest : (Json.obj request).Distinct) (resolved : Resolved) (j : Nat)
    (p : ExecutorCall Store → Prop) {fields : Record} {task : Task}
    (hwrites : catalog.Writes request (catalog.forest request) resolved fields task)
    (htask : (catalog.plan request).tasks[j]? = some task)
    (hcall : ∃ call ∈ (ofCatalog catalog).executions .create request {},
      call.task.path.full = task.path.full ∧ p call) :
    ∃ call, p call ∧ holds catalog resolved fields task call := by
  obtain ⟨call, hmem, hpath, hp⟩ := hcall
  obtain ⟨visits, turns, htour⟩ := (ofCatalog catalog).exists_tour .create request {}
  exact ⟨call, hp, h catalog request {} hmemory hrequest resolved fields task hwrites call hmem
    (htour.for_of_full hrequest htask hmem hpath)⟩

end Engine

namespace Library

/-- Authors under a list of numbers. -/
def listed : Record := [("authors", .obj [("id", .arr [.ofNat 1, .ofNat 2])])]

/-- A book of an author without number. -/
def unnumbered : Record := [("author", .obj [("book", .obj [("id", .ofNat 7)])])]

/-- Shelves, declared with one key twice. -/
def shelf : Model where
  name := "shelf"
  groupName := "shelves"
  columns := [{ key := "code", type := .number }, { key := "code", type := .string }]
  executor := "memory"

/-- The catalog of the shelves. -/
def doubled : Catalog := (Catalog.empty {}).enter shelf ⟨by decide, by decide, by decide⟩

/-- A shelf with a code. -/
def coded : Record := [("shelf", .obj [("code", .str "A")])]

end Library

namespace Engine

/-- It takes all of this: what a book writes in the column to join by is lost, and where its author
has no number an empty list stands there; a list in a group is stored as it is; and of a key that
is declared twice the last type counts. -/
theorem not_creates_as_written :
    (¬ EveryRow fun catalog resolved fields _ call => ∀ column value type, (column, value) ∈ fields →
      resolved.model.rule? catalog.settings.keys column = some (.column type) →
      call.task.newRow.get? column = some value) ∧
    (¬ EveryRow fun _ resolved _ _ call => ∀ column ∈ resolved.model.columns, ∀ value,
      call.task.newRow.get? column.key = some value → (column.type.accept? value).isSome) ∧
    (¬ EveryRow fun _ resolved _ _ call => ∀ key column, resolved.model.declared? key = some column →
      ∀ value, call.task.newRow.get? key = some value → column.type.fits resolved.isGroup value = true) ∧
    ¬ EveryRow fun _ resolved _ task call => ∀ column ∈ resolved.model.columns,
      ¬ task.JoinsBy column.key → ∀ value, call.task.newRow.get? column.key = some value →
      column.type.fits resolved.isGroup value = true := by
  have hnumber : ∀ n : Nat, (Json.ofNat n).Distinct := fun _ => trivial
  refine ⟨fun hall => ?_, fun hall => ?_, fun hall => ?_, fun hall => ?_⟩
  · obtain ⟨call, hrow, hgives⟩ := hall.exists_call Library.inMemory Library.strayed_distinct
      ⟨Library.book, true⟩ 1
      (fun call => (call.task.newRow.get? "author_id").any (Json.same (.ofNat 1)) = true)
      (.inside rfl rfl (.here rfl rfl)) rfl (by decide +kernel)
    rw [hgives "author_id" (.ofNat 2) .number (by simp) rfl] at hrow
    cases hrow
  · have hdistinct : (Json.obj Library.listed).Distinct := by
      simp [Library.listed, Json.Distinct, Json.DistinctFields, Json.DistinctItems, Keyed.keys,
        hnumber]
    obtain ⟨call, hrow, htyped⟩ := hall.exists_call Library.inMemory hdistinct
      ⟨Library.author, true⟩ 0
      (fun call => (call.task.newRow.get? "id").any
        (fun value => (ColumnType.number.accept? value).isNone) = true)
      (.here rfl rfl) rfl (by decide +kernel)
    obtain ⟨value, hvalue, hnone⟩ := (Option.any_eq_true ..).1 hrow
    have hsome : (ColumnType.number.accept? value).isSome :=
      htyped { key := "id", type := .number, isPrimary := true } (by decide) value hvalue
    rw [Option.isNone_iff_eq_none.1 hnone] at hsome
    cases hsome
  · have hdistinct : (Json.obj Library.unnumbered).Distinct := by
      simp [Library.unnumbered, Json.Distinct, Json.DistinctFields, Keyed.keys, hnumber]
    obtain ⟨call, hrow, htyped⟩ := hall.exists_call Library.inMemory hdistinct
      ⟨Library.book, false⟩ 1
      (fun call => (call.task.newRow.get? "author_id").any
        (fun value => !ColumnType.number.fits false value) = true)
      (.inside rfl rfl (.here rfl rfl)) rfl (by decide +kernel)
    obtain ⟨value, hvalue, hnot⟩ := (Option.any_eq_true ..).1 hrow
    have hfits : ColumnType.number.fits false value = true := htyped "author_id"
      { key := "author_id", type := .number, isForeign := true } rfl value hvalue
    rw [hfits] at hnot
    cases hnot
  · have hdistinct : (Json.obj Library.coded).Distinct := by
      simp [Library.coded, Json.Distinct, Json.DistinctFields, Keyed.keys]
    have hmemory : Library.doubled.InMemory := List.forall_mem_singleton.2 ⟨rfl, rfl⟩
    obtain ⟨call, hrow, htyped⟩ := hall.exists_call hmemory hdistinct ⟨_, false⟩ 0
      (fun call => (call.task.newRow.get? "code").any
        (fun value => !ColumnType.number.fits false value) = true)
      (.here rfl rfl) rfl (by decide +kernel)
    obtain ⟨value, hvalue, hnot⟩ := (Option.any_eq_true ..).1 hrow
    have hfits : ColumnType.number.fits false value = true := by
      refine htyped { key := "code", type := .number } (by decide) ?_ value hvalue
      rintro ⟨link, hlink, -⟩
      cases hlink
    rw [hfits] at hnot
    cases hnot

end Engine

end NestedQuery
