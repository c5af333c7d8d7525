import NestedQuery.Proofs.Plan.Twin
import NestedQuery.Proofs.Resolve.Creation
import NestedQuery.Proofs.Resolve.Operations
/-!
# A created record is read back

A request of one node that only gives values under columns compiles to
one task, whose filter spells these values out
(`Catalog.exists_spelled`). To create by it is to store the values, and
what it makes of a row is admitted by the filter that the row was made
of, for every constraint admits the value that it was read from. So the
same values, asked for in a query, find all the rows that they found
before and the new one behind them (`Engine.reads_back`).
-/

namespace NestedQuery

/-! ## Values and their constraints -/

theorem Number.order_self (n : Number) : n.order n = .eq := by
  cases n with
  | int n =>
    rw [order_int]
    exact compare_eq_iff_eq.2 rfl
  | float x =>
    show compare x.rank x.rank = .eq
    exact compare_eq_iff_eq.2 rfl

namespace ColumnType

variable {type : ColumnType} {value : Json} {constraint : Constraint}

/-- What a type accepts it reads alike for one record and for a group. -/
theorem read?_of_accept? (h : type.accept? value = some constraint) (isGroup : Bool) :
    type.read? isGroup value = some constraint := by
  have hsingle : type.read? false value = type.accept? value := by cases value <;> rfl
  rw [← hsingle] at h
  rw [read?_of_single h, h]

theorem isNull_of_accept? (h : type.accept? value = some constraint) : value.isNull = false := by
  cases value with
  | null => cases type <;> cases h
  | _ => rfl

/-- A constraint admits the value that it was read from. -/
theorem admits_self (hdistinct : value.Distinct) (h : type.accept? value = some constraint) :
    constraint.admits value = true := by
  rw [admits_accept? h]
  cases value with
  | null => cases type <;> cases h
  | arr items => cases type <;> cases h
  | bool b => simp [Json.writes]
  | num n => simp [Json.writes, n.order_self]
  | str s => simp [Json.writes]
  | obj fields => exact Json.same_self _ hdistinct

end ColumnType

/-! ## Filters that spell values out -/

/-- The filter of a task constrains the columns that a record has values under, each by its value. -/
structure Task.Spells (task : Task) (fields : Record) : Prop where
  values : ∀ column, (task.constraint? column).map Constraint.toJson = fields.get? column
  admits : ∀ column constraint, task.constraint? column = some constraint →
    constraint.admits constraint.toJson = true

namespace Task.Spells

variable {task other : Task} {fields : Record}

/-- The row that is created is the record, by ascending column. -/
theorem newRow_perm (h : task.Spells fields) (hnodup : (Keyed.keys fields).Nodup) :
    task.newRow.Perm fields := by
  refine Keyed.perm_of_get? ?_ hnodup fun column => (task.get?_newRow column).trans (h.values column)
  unfold Task.newRow
  cases task.filter with
  | none => exact List.nodup_nil
  | some filter =>
    show ((filter.entries.map _).map Prod.fst).Nodup
    rw [List.map_map]
    exact filter.nodup_keys

/-- And it is one that the record asks for. -/
theorem wants_newRow (h : task.Spells fields) (hother : other.Spells fields) :
    other.Wants task.newRow := by
  intro column constraint hconstraint
  have hvalue := hother.values column
  rw [hconstraint, Option.map_some] at hvalue
  refine ⟨constraint.toJson, ?_, hother.admits column constraint hconstraint⟩
  rw [task.get?_newRow, h.values, ← hvalue]

/-- Behind other rows of the table, the new row is found behind those found before. -/
theorem found_append (h : task.Spells fields) (hother : other.Spells fields)
    (hmodel : other.model = task.model) (store : Store) :
    (store.append task.model [task.newRow]).found other = store.found other ++ [task.newRow] := by
  have hadmits := (other.admits_iff_wants task.newRow).2 (h.wants_newRow hother)
  rw [Store.found, hmodel, Store.append, Store.rows_setRows, if_pos rfl, List.filter_append,
    List.filter_cons_of_pos hadmits, List.filter_nil, Store.found, hmodel]

end Task.Spells

/-! ## Requests of one node -/

/-- The task of a node at the top that constrains some columns and says nothing else. -/
def Task.plain (resolved : Resolved) (key : String) (filter : Option Filter) : Task :=
  { Task.start resolved key none none with filter }

namespace Catalog

variable {catalog : Catalog} {model : Model} {fields : Record}

/-- All that a record has are values under columns of a model, each of the type of its column. -/
def Holds (catalog : Catalog) (model : Model) (fields : Record) : Prop :=
  ∀ key value, (key, value) ∈ fields →
    ∃ type constraint, model.rule? catalog.settings.keys key = some (.column type) ∧
      type.accept? value = some constraint

theorem holds_cons {key : String} {value : Json}
    (h : catalog.Holds model ((key, value) :: fields)) :
    (∃ type constraint, model.rule? catalog.settings.keys key = some (.column type) ∧
      type.accept? value = some constraint) ∧ catalog.Holds model fields :=
  ⟨h key value (List.mem_cons_self ..), fun k v hmem => h k v (List.mem_cons_of_mem _ hmem)⟩

/-- The key of the model directive is not read as a column. -/
theorem Holds.get?_model (h : catalog.Holds model fields) :
    fields.get? catalog.settings.keys.model = none := by
  refine (Keyed.get?_eq_none_iff _ _).2 fun hkey => ?_
  obtain ⟨⟨_, value⟩, hmem, rfl⟩ := List.mem_map.1 hkey
  obtain ⟨type, -, hrule, -⟩ := h _ value hmem
  exact (Model.exists_column hrule).1 .model rfl

/-- Values under columns change nothing of a task but its filter. -/
theorem Holds.exists_filter (h : catalog.Holds model fields) (task : Task) :
    ∃ filter, catalog.applyRules model task fields = ({ task with filter }, none) := by
  induction fields generalizing task with
  | nil => exact ⟨task.filter, by rw [applyRules]⟩
  | cons field rest ih =>
    obtain ⟨key, value⟩ := field
    obtain ⟨⟨type, constraint, hrule, haccept⟩, hrest⟩ := holds_cons h
    have happly : Rule.applyTo (.column type) model catalog.settings key value task =
        (task.constrain key constraint, none) := by
      rw [Rule.applyTo, Rule.applyColumn_eq, ColumnType.read?_of_accept? haccept]
    obtain ⟨filter, hfilter⟩ := ih hrest (task.constrain key constraint)
    refine ⟨filter, ?_⟩
    rw [applyRules, ColumnType.isNull_of_accept? haccept, if_neg Bool.false_ne_true]
    simp only [hrule, happly, hfilter]
    rfl

/-- What the rules of such values leave spells the values out. -/
theorem Holds.spells (h : catalog.Holds model fields) (hfields : (Json.obj fields).Distinct)
    {start task : Task} (hstart : start.filter = none)
    (hrules : catalog.applyRules model start fields = (task, none)) : task.Spells fields := by
  obtain ⟨hnodup, hdistinct⟩ := (Json.distinct_obj_iff fields).1 hfields
  have hwritten : ∀ column constraint, task.constraint? column = some constraint →
      ∃ (value : Json) (type : ColumnType), (column, value) ∈ fields ∧
        type.accept? value = some constraint := by
    intro column constraint hconstraint
    rcases written_of_applyRules hrules hconstraint with hnone | ⟨value, type, hmem, hrule, hread⟩
    · rw [Task.constraint?, hstart] at hnone
      cases hnone
    · obtain ⟨type', other, hrule', haccept⟩ := h column value hmem
      obtain rfl := Rule.column.inj (Option.some.inj (hrule.symm.trans hrule'))
      rw [ColumnType.read?_of_accept? haccept] at hread
      exact ⟨value, type, hmem, haccept.trans hread⟩
  constructor
  · intro column
    cases hconstraint : task.constraint? column with
    | some constraint =>
      obtain ⟨value, type, hmem, haccept⟩ := hwritten column constraint hconstraint
      rw [Option.map_some, ColumnType.toJson_of_accept? haccept, Keyed.get?_of_mem hnodup hmem]
    | none =>
      -- a value there would be a constraint
      refine ((Keyed.get?_eq_none_iff _ _).2 fun hkey => ?_).symm
      obtain ⟨⟨_, value⟩, hmem, rfl⟩ := List.mem_map.1 hkey
      obtain ⟨type, -, hrule, -⟩ := h _ value hmem
      obtain ⟨constraint, hsome, -⟩ := read_applyRules hnodup hrules hmem hrule
      cases hconstraint.symm.trans hsome
  · intro column constraint hconstraint
    obtain ⟨value, type, hmem, haccept⟩ := hwritten column constraint hconstraint
    rw [ColumnType.toJson_of_accept? haccept]
    exact ColumnType.admits_self (hdistinct _ hmem) haccept

/-- Values under columns name no nested nodes. -/
theorem Holds.compileNested_eq (h : catalog.Holds model fields) (task : Task) :
    catalog.compileNested model task fields = ⟨task, [], [], none⟩ := by
  induction fields with
  | nil => rw [compileNested]
  | cons field rest ih =>
    obtain ⟨key, value⟩ := field
    obtain ⟨⟨type, constraint, hrule, -⟩, hrest⟩ := holds_cons h
    have hkey : catalog.hasRule model key = true := by rw [hasRule, hrule]; rfl
    rw [compileNested, if_pos hkey, ih hrest]

/-- **A request of one node that only gives values under columns** compiles to one task,
whose filter spells the values out. -/
theorem exists_spelled {resolved : Resolved} {key : String}
    (hresolved : catalog.resolve? key = some resolved) (h : catalog.Holds resolved.model fields)
    (hfields : (Json.obj fields).Distinct) :
    ∃ filter, catalog.plan [(key, .obj fields)] = ⟨[.plain resolved key filter], []⟩ ∧
      (Task.plain resolved key filter).Spells fields := by
  obtain ⟨filter, hrules⟩ := h.exists_filter (.start resolved key none none)
  refine ⟨filter, ?_, h.spells hfields rfl hrules⟩
  have hnode : catalog.resolveNode key (.obj fields) = .ok resolved := by
    have hdirective : (Json.obj fields).get? catalog.settings.keys.model = none := h.get?_model
    simp only [resolveNode, nodeName, hdirective, hresolved]
  have htop : catalog.compileTop key (.obj fields) =
      (.node (.plain resolved key filter) [], []) := by
    rw [compileTop, hnode]
    simp only [compile, hrules, h.compileNested_eq]
    rfl
  simp only [plan, List.map_cons, List.map_nil, htop]
  rfl

end Catalog

/-! ## Runs of one task -/

namespace Engine

section

variable {catalog : Catalog} {operation : Operation} {task : Task} {store after : Store}
  {outcome : Outcome}

/-- Rows of a task that lists no fields are shown as they are. -/
theorem mapRecords_finish (hfields : task.fields = none) (outcome : Outcome) :
    outcome.mapRecords task.finish = outcome := by
  have hfinish : task.finish = id := by
    funext row
    rw [Task.finish, Task.aliases, Task.temporarySources, hfields]
    rfl
  rw [hfinish]
  cases outcome <;> simp [Outcome.mapRecords]

/-- One task without a parent is noted with what it came to. -/
theorem settled_lone (hlink : task.link = none) (hfields : task.fields = none) :
    (((Progress.start ⟨[task], []⟩).enter task 0).keep task 0 outcome).settled = [outcome] := by
  have hparent : ((Progress.start ⟨[task], []⟩).enter task 0).parent? task = none := by
    rw [Progress.parent?, hlink]
    rfl
  rw [Progress.settled]
  simp only [Progress.keep, hparent]
  show [outcome.mapRecords task.finish] = [outcome]
  rw [mapRecords_finish hfields]

theorem collect_lone {key : String} (hpath : task.path.keys = [key])
    (hnested : task.isNested = false) :
    collect [task] [outcome] = .obj [(key, outcome.toJson)] := by
  rw [collect]
  simp [hnested, hpath, Json.writeAt, Json.writeInto, Json.writeBelow?, Keyed.put]

/-- A run of one task at the top shows what the store makes of the task. -/
theorem run_lone {request : Record} {key : String} (hplan : catalog.plan request = ⟨[task], []⟩)
    (hmemory : task.InMemory) (hpath : task.path.keys = [key]) (hnested : task.isNested = false)
    (hlink : task.link = none) (hfields : task.fields = none)
    (hexecute : (Store.execute operation task).run.run store = (.ok outcome, after))
    (hpresent : outcome.isAbsent = false) :
    ((ofCatalog catalog).run operation request).run store =
      (⟨.obj [(key, outcome.toJson)], []⟩, after) := by
  have hjoined : ∀ cache : JoinCache, task.joined cache = .ok task := by
    intro cache
    rw [Task.joined, hlink]
  have hsettle : settle (.ok outcome) = .ok outcome := settle_eq_ok.2 ⟨rfl, hpresent⟩
  have hattempt : ∀ cache : JoinCache, ((ofCatalog catalog).attempt
      ⟨operation, (ofCatalog catalog).catalog, request, cache⟩ task).run store =
        (.ok outcome, after) := fun cache =>
    (attempt_memory hmemory (hjoined cache) hexecute).trans (by rw [hsettle])
  generalize hfinal : ((Progress.start ⟨[task], []⟩).enter task 0).keep task 0 outcome = final
  have hsettled : final.settled = [outcome] := hfinal ▸ settled_lone hlink hfields
  have herrors : final.errors = [] := by
    rw [← hfinal]
    rfl
  have hwalk : ((ofCatalog catalog).walk operation request 0 [task] (.start ⟨[task], []⟩)).run store =
      (final, after) := by
    rw [walk_run_ok (hattempt _), walk, hfinal]
    rfl
  have hcatalog : (ofCatalog catalog).catalog.plan request = ⟨[task], []⟩ := hplan
  rw [run, resolve, hcatalog, StateT.run_bind, hwalk]
  show ((⟨collect [task] final.settled, final.errors⟩ : Resolution), after) = _
  rw [hsettled, collect_lone hpath hnested, herrors]

/-- **A request that only gives values under columns** is answered by what the store makes of one
task, whose filter spells the values out. -/
theorem exists_answers {resolved : Resolved} {key : String} {fields : Record}
    (hresolved : catalog.resolve? key = some resolved) (hparser : resolved.model.parser = "default")
    (hexecutor : resolved.model.executor = "memory") (hholds : catalog.Holds resolved.model fields)
    (hfields : (Json.obj fields).Distinct) :
    ∃ filter, (Task.plain resolved key filter).Spells fields ∧
      ∀ {operation : Operation} {store after : Store} {outcome : Outcome},
        (Store.execute operation (.plain resolved key filter)).run.run store = (.ok outcome, after) →
        outcome.isAbsent = false →
        ((ofCatalog catalog).answer operation (.obj [(key, .obj fields)])).run store =
          (.resolved ⟨.obj [(key, outcome.toJson)], []⟩, after) := by
  obtain ⟨filter, hplan, hspells⟩ := Catalog.exists_spelled hresolved hholds hfields
  refine ⟨filter, hspells, fun hexecute hpresent => ?_⟩
  have hrun := run_lone hplan ⟨hparser, hexecutor, rfl⟩ rfl rfl rfl rfl hexecute hpresent
  rw [answer, StateT.run_bind, hrun]
  rfl

end

/-! ## The law -/

/-- A record is created, and what is asked for by it before and after. -/
structure ReadsBack (engine : Engine Store) (model : Model) (fields row : Record)
    (before after : Store) (found : List Record) : Prop where
  /-- The row that is made is the record, but for the order of the keys. -/
  spelled : row.Perm fields
  created : (engine.answer .create (.obj [(model.name, .obj fields)])).run before =
    (.resolved ⟨.obj [(model.name, .obj row)], []⟩, after)
  asked : (engine.answer .query (.obj [(model.groupName, .obj fields)])).run before =
    (.resolved ⟨.obj [(model.groupName, .arr (found.map .obj))], []⟩, before)
  /-- The row stands behind those that were found before. -/
  again : (engine.answer .query (.obj [(model.groupName, .obj fields)])).run after =
    (.resolved ⟨.obj [(model.groupName, .arr (found.map .obj ++ [.obj row]))], []⟩, after)
  counted : (engine.answer .count (.obj [(model.groupName, .obj fields)])).run before =
    (.resolved ⟨.obj [(model.groupName, .ofNat found.length)], []⟩, before)
  recounted : (engine.answer .count (.obj [(model.groupName, .obj fields)])).run after =
    (.resolved ⟨.obj [(model.groupName, .ofNat (found.length + 1))], []⟩, after)

/-- **A created record is read back** as the last one of those that it asks for. -/
theorem reads_back {catalog : Catalog} (haccepted : catalog.Accepted) {model : Model}
    (hmodel : model ∈ catalog.models) (hparser : model.parser = "default")
    (hexecutor : model.executor = "memory") {fields : Record}
    (hholds : catalog.Holds model fields) (hfields : (Json.obj fields).Distinct) (store : Store) :
    ∃ row after found, (ofCatalog catalog).ReadsBack model fields row store after found := by
  obtain ⟨filter, hspells, hanswers⟩ :=
    exists_answers (haccepted.resolve?_name hmodel) hparser hexecutor hholds hfields
  obtain ⟨filter', hspells', hanswers'⟩ :=
    exists_answers (haccepted.resolve?_groupName hmodel) hparser hexecutor hholds hfields
  generalize hsingle : Task.plain ⟨model, false⟩ model.name filter = single at hspells hanswers
  generalize hgroup : Task.plain ⟨model, true⟩ model.groupName filter' = group at hspells' hanswers'
  have hselect : ∀ store : Store, (Store.execute .query group).run.run store =
      (.ok (.records (store.found group)), store) := by
    intro store
    have hrows : store.select group = .records (store.found group) := by
      rw [← hgroup]
      exact Store.select_plain rfl rfl rfl
    rw [← hrows]
    rfl
  have hcount : ∀ store : Store, (Store.execute .count group).run.run store =
      (.ok (.count (store.found group).length), store) := fun store => store.execute_count group
  have hcreate : (Store.execute .create single).run.run store =
      (.ok (.record single.newRow), store.append single.model [single.newRow]) := by
    rw [← hsingle]
    rfl
  have hafter := hspells.found_append hspells' (by rw [← hsingle, ← hgroup]; rfl) store
  refine ⟨single.newRow, store.append single.model [single.newRow], store.found group,
    hspells.newRow_perm hfields.1, hanswers hcreate rfl, hanswers' (hselect store) rfl, ?_,
    hanswers' (hcount store) rfl, ?_⟩
  · rw [hanswers' (hselect _) rfl, hafter]
    simp [Outcome.toJson]
  · rw [hanswers' (hcount _) rfl, hafter]
    simp [Outcome.toJson]

end Engine

namespace Library

/-- An author that is there already, the columns in another order. -/
def annAgain : Record := [("name", .str "Ann"), ("id", .ofNat 1)]

theorem holds_annAgain : catalog.Holds author annAgain := by
  intro key value hmem
  simp only [annAgain, List.mem_cons, List.not_mem_nil, or_false] at hmem
  rcases hmem with heq | heq
  · obtain ⟨rfl, rfl⟩ := Prod.mk.inj heq
    exact ⟨.string, .string "Ann", rfl, rfl⟩
  · obtain ⟨rfl, rfl⟩ := Prod.mk.inj heq
    exact ⟨.number, .number (.int 1), rfl, rfl⟩

end Library

namespace Engine

/-- There is one such author before, and there are two after. -/
theorem reads_back_library : Library.catalog.Accepted ∧ Library.author ∈ Library.catalog.models ∧
    Library.author.parser = "default" ∧ Library.author.executor = "memory" ∧
    Library.catalog.Holds Library.author Library.annAgain ∧ (Json.obj Library.annAgain).Distinct ∧
    (∃ row after found, (ofCatalog Library.catalog).ReadsBack Library.author Library.annAgain row
      Library.stocked after found) ∧
    (Library.stocked.found (.plain ⟨Library.author, true⟩ "authors"
      (some (.ofList [("id", .number (.int 1)), ("name", .string "Ann")])))).length = 1 := by
  have hmem : Library.author ∈ Library.catalog.models := List.mem_cons_self ..
  have hdistinct : (Json.obj Library.annAgain).Distinct := by
    simp [Library.annAgain, Json.Distinct, Json.DistinctFields, Keyed.keys, Json.ofNat]
  exact ⟨Library.accepted, hmem, rfl, rfl, Library.holds_annAgain, hdistinct,
    reads_back Library.accepted hmem rfl rfl Library.holds_annAgain hdistinct Library.stocked,
    by decide +kernel⟩

end Engine

end NestedQuery
