import NestedQuery.Proofs.Json.Forgetting
import NestedQuery.Proofs.Plan.Sound
import NestedQuery.Proofs.Resolve.Isolation
/-!
# Tasks that show the same

Two tasks may fetch and index different columns of the same rows and
still show the same records (`Task.Kin`): what a task fetches only to
be joined to is taken away again, and what joins to it looks at columns
that both have. So a task is kin to what it is when fewer or other
branches are nested in it (`Branch.kin_widen`, `Branch.kin_grow`).

Visits to kin leave the same as far as what is nested in them does. Of
that a key may be left out of account, which is then forgotten in the
records below the task, too (`Visit.leavesBut_kept`,
`Visit.LeavesBut.sameBut`).
-/

namespace NestedQuery

/-! ## Outcomes -/

namespace Outcome

variable (f : Record → Record) (outcome : Outcome)

theorem toJson_mapRecords : (outcome.mapRecords f).toJson = outcome.toJson.onRecords f := by
  cases outcome with
  | records rows =>
    simp only [mapRecords, toJson, Json.onRecords, List.map_map]
    rfl
  | _ => rfl

theorem record?_mapRecords (position : Nat) :
    (outcome.mapRecords f).record? position = (outcome.record? position).map f := by
  rw [mapRecords_eq, record?_mapAt]

theorem isAbsent_mapRecords : (outcome.mapRecords f).isAbsent = outcome.isAbsent := by
  cases outcome <;> rfl

end Outcome

/-- A change of records that leaves a column alone leaves its index alone. -/
theorem JoinIndex.ofOutcome_mapRecords {f : Record → Record} {column : String}
    (h : ∀ record, Keyed.get? (f record) column = Keyed.get? record column) (outcome : Outcome) :
    ofOutcome (outcome.mapRecords f) column = ofOutcome outcome column := by
  have hrecords : ∀ (rows : List Record) (index : JoinIndex) (position : Nat),
      pushRecords column index position (rows.map f) = pushRecords column index position rows := by
    intro rows
    induction rows with
    | nil => exact fun _ _ => rfl
    | cons row rest ih =>
      intro index position
      rw [List.map_cons, pushRecords, pushRecords, h]
      split <;> exact ih _ _
  cases outcome with
  | record fields => rw [Outcome.mapRecords, ofOutcome, ofOutcome, ofRecord, ofRecord, h]
  | records rows => exact hrecords rows {} 0
  | _ => rfl

/-- What a store selects are the rows it would select, cut to the listed fields. -/
theorem Store.select_eq (store : Store) (task : Task) :
    store.select task = (store.select { task with fields := none }).mapRecords fun row =>
      Record.project row task.fields := by
  have hrows : ∀ rows, ({ task with fields := none } : Task).sorted rows = task.sorted rows :=
    fun _ => rfl
  have hpaged : ∀ rows, ({ task with fields := none } : Task).paged rows = task.paged rows :=
    fun _ => rfl
  have hfound : store.found { task with fields := none } = store.found task := rfl
  simp only [select, hrows, hpaged, hfound]
  cases task.batch.isBatch with
  | true => simp [Outcome.mapRecords, Record.project]
  | false =>
    cases task.sorted (store.found task) with
    | nil => rfl
    | cons row rest => rfl

/-! ## Tasks that show the same -/

/-- Two tasks that are about the same rows: they differ in the columns that they fetch and index, and
in how many tasks they count as their own. -/
def Task.SameRows (task other : Task) : Prop :=
  ∃ joinColumns fields childCount, other = { task with joinColumns, fields, childCount }

theorem Task.SameRows.refl (task : Task) : task.SameRows task := ⟨_, _, _, rfl⟩

/-- Such tasks rank what is found for them alike. -/
theorem Task.SameRows.ranks {task other : Task} (h : task.SameRows other) {store : Store}
    (hranks : task.Ranks (store.found task)) : other.Ranks (store.found other) := by
  obtain ⟨_, _, _, rfl⟩ := h
  exact hranks

/-- Two tasks that show the same: they differ in the columns that they fetch and index to be joined
to, and in how many tasks they count as their own. -/
structure Task.Kin (task other : Task) : Prop where
  same : task.SameRows other
  shown : task.fields.map shown = other.fields.map NestedQuery.shown
  columns : other.joinColumns ⊆ task.joinColumns

namespace Branch

theorem widen_eq (task : Task) (nested : List Branch) :
    ∃ joinColumns, widen task nested = { task with joinColumns } := by
  induction nested generalizing task with
  | nil => exact ⟨task.joinColumns, rfl⟩
  | cons branch rest ih =>
    unfold widen
    split
    · next link _ =>
      obtain ⟨columns, hcolumns⟩ := task.addJoinColumn_eq link.referencedKey
      obtain ⟨joinColumns, heq⟩ := ih (task.addJoinColumn link.referencedKey)
      exact ⟨joinColumns, by rw [heq, hcolumns]⟩
    · exact ih task

/-- The task of a node is kin to what it is without some of the branches nested in it. -/
theorem kin_widen (ruled : Task) {nested nested' : List Branch} (hnested : nested' ⊆ nested) :
    (grow (widen ruled nested).addJoinFields nested).root.Kin
      (grow (widen ruled nested').addJoinFields nested').root := by
  have hcolumns : (widen ruled nested').joinColumns ⊆ (widen ruled nested).joinColumns := by
    intro column hcolumn
    rcases mem_widen_iff.1 hcolumn with hown | ⟨branch, hbranch, hjoined⟩
    · exact mem_widen_iff.2 (.inl hown)
    · exact mem_widen_iff.2 (.inr ⟨branch, hnested hbranch, hjoined⟩)
  have hshown := (shown_grow ruled nested).trans (shown_grow ruled nested').symm
  obtain ⟨columns, heq⟩ := widen_eq ruled nested
  obtain ⟨columns', heq'⟩ := widen_eq ruled nested'
  rw [heq, heq'] at hcolumns hshown ⊢
  exact ⟨⟨_, _, _, rfl⟩, hshown, hcolumns⟩

theorem kin_dropped (ruled : Task) (first last : List Branch) (dropped : Branch) :
    (grow (widen ruled (first ++ dropped :: last)).addJoinFields (first ++ dropped :: last)).root.Kin
      (grow (widen ruled (first ++ last)).addJoinFields (first ++ last)).root :=
  kin_widen ruled (List.Sublist.subset ((List.sublist_cons_self dropped last).append_left first))

/-- And to what it is with as many columns and other branches. -/
theorem kin_grow (task : Task) (nested nested' : List Branch) :
    (grow task nested).root.Kin (grow task nested').root :=
  ⟨⟨_, _, _, rfl⟩, rfl, List.Subset.refl _⟩

end Branch

namespace Task.Kin

variable {task other : Task}

section

variable (h : task.Kin other)
include h

theorem path_eq : other.path = task.path := by
  obtain ⟨_, _, _, rfl⟩ := h.same
  rfl

theorem link_eq : other.link = task.link := by
  obtain ⟨_, _, _, rfl⟩ := h.same
  rfl

theorem batch_eq : other.batch = task.batch := by
  obtain ⟨_, _, _, rfl⟩ := h.same
  rfl

theorem isFailed_eq : other.isFailed = task.isFailed := by
  obtain ⟨_, _, _, rfl⟩ := h.same
  rfl

/-- Kin that join to hosts that agree are still about the same rows. -/
theorem joinedTo_sameRows {catalog : Catalog} {host? host?' : Option Host}
    (hagree : Host.Agree host? host?') (hbelow : task.Below catalog (host?.map Host.task))
    (hbelow' : other.Below catalog (host?'.map Host.task)) :
    (task.joinedTo host?).SameRows (other.joinedTo host?') := by
  obtain ⟨joinColumns, fields, childCount, hsame⟩ := h.same
  refine ⟨joinColumns, fields, childCount, ?_⟩
  cases hlink : task.link with
  | none =>
    rw [joinedTo_unlinked hlink, joinedTo_unlinked (h.link_eq.trans hlink)]
    exact hsame
  | some link =>
    obtain ⟨host, host', rfl, rfl, hindex⟩ := hagree.index_eq hbelow hbelow' h.link_eq hlink
    rw [joinedTo_linked hlink, joinedTo_linked (h.link_eq.trans hlink), hostConstraint,
      hostConstraint, hindex, hsame]
    rfl

/-- So they find the same rows. -/
theorem select_eq {catalog : Catalog} {host? host?' : Option Host} (hagree : Host.Agree host? host?')
    (hbelow : task.Below catalog (host?.map Host.task))
    (hbelow' : other.Below catalog (host?'.map Host.task)) (store : Store) :
    store.select { other.joinedTo host?' with fields := none } =
      store.select { task.joinedTo host? with fields := none } := by
  obtain ⟨joinColumns, fields, childCount, heq⟩ := h.joinedTo_sameRows hagree hbelow hbelow'
  rw [heq]
  rfl

/-- So of the same rows each fetches the fields that it lists. -/
theorem exists_rows {catalog : Catalog} {host? host?' : Option Host} (hagree : Host.Agree host? host?')
    (hbelow : task.Below catalog (host?.map Host.task))
    (hbelow' : other.Below catalog (host?'.map Host.task)) (store : Store) :
    ∃ rows : Outcome,
      store.select (task.joinedTo host?) = rows.mapRecords (fun row => Record.project row task.fields) ∧
      store.select (other.joinedTo host?') =
        rows.mapRecords fun row => Record.project row other.fields := by
  refine ⟨store.select { task.joinedTo host? with fields := none }, ?_, ?_⟩
  · rw [Store.select_eq, joinedTo_fields]
  · rw [Store.select_eq, joinedTo_fields, h.select_eq hagree hbelow hbelow']

/-- Kin show the same record of a row. -/
theorem finish_eq {catalog : Catalog} (hsound : task.Sound catalog) (hsound' : other.Sound catalog)
    (row : Record) :
    task.finish (Record.project row task.fields) = other.finish (Record.project row other.fields) :=
  finish_congr (fun fields hfields => (hsound.listing fields hfields).1)
    (fun fields hfields => (hsound'.listing fields hfields).1) h.shown row

/-- And of rows that both fetched they have the same index of a column that both index. -/
theorem index_eq {catalog : Catalog} (hsound : task.Sound catalog) (hsound' : other.Sound catalog)
    {column : String} (hcolumn : column ∈ other.joinColumns) (rows : Outcome) :
    JoinIndex.ofOutcome (rows.mapRecords fun row => Record.project row task.fields) column =
      .ofOutcome (rows.mapRecords fun row => Record.project row other.fields) column := by
  have hfetched : ∀ {task : Task}, task.Sound catalog → column ∈ task.joinColumns →
      JoinIndex.ofOutcome (rows.mapRecords fun row => Record.project row task.fields) column =
        .ofOutcome rows column := fun hsound hcolumn =>
    JoinIndex.ofOutcome_mapRecords (fun _ => get?_project_of_mem fun fields hfields =>
      (hsound.listing fields hfields).2 column hcolumn) rows
  rw [hfetched hsound (h.columns hcolumn), hfetched hsound' hcolumn]

end

end Task.Kin

/-! ## Visits that leave the same but for a key -/

namespace Visit

variable {key : String} {paths : List (List String)} {visit visit' : Visit} {visits visits' : List Visit}

/-- A change of the records of a visit is seen in what the visit writes. -/
theorem valueFor_mapRecords (visit : Visit) (f : Record → Record) (link : Link) (outcome : Outcome)
    (joinKey : Json) :
    (visit.valueFor link outcome joinKey).onRecords f =
      visit.valueFor link (outcome.mapRecords f) joinKey := by
  cases visit with
  | missed stop fault => rfl
  | kept stop fetched nested =>
    simp only [valueFor]
    split
    · split
      · simp only [Json.onRecords, ← List.filterMap_eq_map, List.filterMap_filterMap,
          Outcome.record?_mapRecords]
        congr 1
        refine List.filterMap_congr fun position _ => ?_
        cases outcome.record? position <;> rfl
      · cases (fetched.joining link.localKey joinKey).head? with
        | none => rfl
        | some position =>
          simp only [Option.bind_some, Outcome.record?_mapRecords]
          cases outcome.record? position <;> rfl
    · exact (outcome.toJson_mapRecords f).symm

/-- Two visits to kin leave the same where a key is forgotten in the records below some paths. -/
structure LeavesBut (key : String) (paths : List (List String)) (visit visit' : Visit) : Prop where
  kin : visit.stop.task.Kin visit'.stop.task
  value : ∀ link, visit.stop.task.link = some link → ∀ joinKey,
    (visit.valueFor link visit.final joinKey).forget key paths =
      (visit'.valueFor link visit'.final joinKey).forget key paths
  final : visit.final.toJson.forget key paths = visit'.final.toJson.forget key paths

/-- What visits leave in the records of hosts, or at the top, is the same where a key is
forgotten. -/
structure SameBut (key : String) (paths : List (List String)) (visits visits' : List Visit) : Prop where
  stitched : ∀ {host host' : Host},
    (∀ visit ∈ visits', ∀ link ∈ visit.stop.task.link, JoinIndex.ofOutcome host.fetched
      link.referencedKey = .ofOutcome host'.fetched link.referencedKey) →
    ∀ (position : Nat) (record : Record),
      Record.forget key paths (stitchAll host visits position record) =
        Record.forget key paths (stitchAll host' visits' position record)
  collected : ∀ record : Record, (visits.foldl collectInto (.obj record)).forget key paths =
    (visits'.foldl collectInto (.obj record)).forget key paths

theorem stitchAll_append (host : Host) (visits more : List Visit) (position : Nat) (record : Record) :
    stitchAll host (visits ++ more) position record =
      stitchAll host visits position (stitchAll host more position record) :=
  List.foldr_append ..

theorem collectInto_obj (visit : Visit) (record : Record) :
    collectInto (.obj record) visit =
      .obj (Json.writeInto record visit.stop.task.path.keys visit.final.toJson) :=
  rfl

/-- Visits under other keys keep records equal. -/
theorem forget_stitchAll (hapart : ∀ visit ∈ visits, visit.segment? ≠ Record.forgotten? key paths)
    (host : Host) (position : Nat) {record record' : Record}
    (hsame : record.forget key paths = record'.forget key paths) :
    Record.forget key paths (stitchAll host visits position record) =
      Record.forget key paths (stitchAll host visits position record') := by
  induction visits with
  | nil => exact hsame
  | cons visit rest ih =>
    obtain ⟨hvisit, hrest⟩ := List.forall_mem_cons.1 hapart
    show Record.forget key paths (visit.stitchAt host visit.final position (stitchAll host rest position
      record)) = Record.forget key paths (visit.stitchAt host visit.final position (stitchAll host rest
      position record'))
    unfold stitchAt
    split
    · exact ih hrest
    · split
      · exact Record.forget_writeInto_congr hvisit (ih hrest) _
      · exact ih hrest

theorem forget_collected (hapart : ∀ visit ∈ visits, visit.segment? ≠ Record.forgotten? key paths)
    {record record' : Record} (hsame : record.forget key paths = record'.forget key paths) :
    (visits.foldl collectInto (.obj record)).forget key paths =
      (visits.foldl collectInto (.obj record')).forget key paths := by
  induction visits generalizing record record' with
  | nil => exact congrArg Json.obj hsame
  | cons visit rest ih =>
    obtain ⟨hvisit, hrest⟩ := List.forall_mem_cons.1 hapart
    rw [List.foldl_cons, List.foldl_cons, collectInto_obj, collectInto_obj]
    exact ih hrest (Record.forget_writeInto_congr hvisit hsame _)

theorem collected_congr (h : List.Forall₂ Leaves visits visits') (data : Json) :
    visits.foldl collectInto data = visits'.foldl collectInto data := by
  induction h generalizing data with
  | nil => rfl
  | cons hhead _ ih =>
    rw [List.foldl_cons, List.foldl_cons, ih, collectInto, collectInto, hhead.task, hhead.final]

theorem exists_collected (visits : List Visit) (record : Record) :
    ∃ collected : Record, visits.foldl collectInto (.obj record) = .obj collected := by
  induction visits generalizing record with
  | nil => exact ⟨record, rfl⟩
  | cons visit rest ih => exact ih _

theorem links_congr (h : List.Forall₂ Leaves visits visits') {P : Link → Prop}
    (hlinks : ∀ visit ∈ visits', ∀ link ∈ visit.stop.task.link, P link) :
    ∀ visit ∈ visits, ∀ link ∈ visit.stop.task.link, P link := by
  induction h with
  | nil => exact fun _ hmem => nomatch hmem
  | cons hhead _ ih =>
    obtain ⟨hvisit, hrest⟩ := List.forall_mem_cons.1 hlinks
    exact List.forall_mem_cons.2 ⟨hhead.task ▸ hvisit, ih hrest⟩

theorem sameBut_of_leaves (h : List.Forall₂ Leaves visits visits') : SameBut key paths visits visits' where
  stitched := fun hindex position record => by rw [stitchAll_congr h (links_congr h hindex)]
  collected := fun record => by rw [collected_congr h]

/-- Visits that leave the same, before and behind others and under other keys than these. -/
theorem SameBut.among (h : SameBut key paths visits visits') {before before' after after' : List Visit}
    (hbefore : List.Forall₂ Leaves before before') (hafter : List.Forall₂ Leaves after after')
    (hapart : ∀ visit ∈ before, visit.segment? ≠ Record.forgotten? key paths)
    (hapart' : ∀ visit ∈ after, visit.segment? ≠ Record.forgotten? key paths) :
    SameBut key paths (before ++ (visits ++ after)) (before' ++ (visits' ++ after')) where
  stitched := by
    intro host host' hindex position record
    have hfirst := links_congr hbefore fun visit hmem => hindex visit (List.mem_append_left _ hmem)
    have hlast := links_congr hafter fun visit hmem =>
      hindex visit (List.mem_append_right _ (List.mem_append_right _ hmem))
    have hmiddle := h.stitched fun visit hmem =>
      hindex visit (List.mem_append_right _ (List.mem_append_left _ hmem))
    rw [stitchAll_append, stitchAll_append, stitchAll_append, stitchAll_append,
      ← stitchAll_congr hbefore hfirst, ← stitchAll_congr hafter hlast]
    exact forget_stitchAll hapart host position (hmiddle position _)
  collected := by
    intro record
    rw [List.foldl_append, List.foldl_append, List.foldl_append, List.foldl_append,
      ← collected_congr hbefore, ← collected_congr hafter]
    obtain ⟨first, hfirst⟩ := exists_collected before record
    obtain ⟨last, hlast⟩ := exists_collected visits first
    obtain ⟨last', hlast'⟩ := exists_collected visits' first
    have hvisits := h.collected first
    rw [hlast, hlast'] at hvisits
    rw [hfirst, hlast, hlast']
    exact forget_collected hapart' (Json.obj.inj hvisits)

/-- A visit that leaves the same but for a key puts the same into the records of a host, but for the
key below the path of its task. -/
theorem LeavesBut.sameBut (h : LeavesBut key paths visit visit') {path : List String}
    (hpath : visit.stop.task.path.keys = path) : SameBut key (path :: paths) [visit] [visit'] where
  stitched := by
    intro host host' hindex position record
    have hindex := hindex visit' (List.mem_singleton_self _)
    show Record.forget key _ (visit.stitchAt host visit.final position record) =
      Record.forget key _ (visit'.stitchAt host' visit'.final position record)
    unfold stitchAt
    rw [h.kin.link_eq] at hindex ⊢
    cases hlink : visit.stop.task.link with
    | none => rfl
    | some link =>
      have htarget : visit'.stop.task.targetKey? link host' position =
          visit.stop.task.targetKey? link host position := by
        rw [Task.targetKey?_congr _ (hindex link hlink), Task.targetKey?, Task.targetKey?,
          h.kin.batch_eq]
      simp only [htarget, h.kin.path_eq, hpath]
      split
      · exact Json.adjustBelow_writeInto (h.value link hlink _) _ _
      · rfl
  collected := by
    intro record
    show (collectInto (.obj record) visit).forget key _ = (collectInto (.obj record) visit').forget key _
    rw [collectInto_obj, collectInto_obj, h.kin.path_eq, hpath]
    exact congrArg Json.obj (Json.adjustBelow_writeInto h.final _ _)

theorem leavesBut_missed {stop stop' : Stop} (hkin : stop.task.Kin stop'.task)
    (fault fault' : Option Fault) : LeavesBut key paths (.missed stop fault) (.missed stop' fault') where
  kin := hkin
  value := fun _ _ _ => rfl
  final := by rw [final, final]

/-- Visits to kin for which the same rows were selected leave the same but for a key, if what is
nested in the two does. -/
theorem leavesBut_kept {catalog : Catalog} {stop stop' : Stop} (hkin : stop.task.Kin stop'.task)
    (hsound : stop.task.Sound catalog) (hsound' : stop'.task.Sound catalog)
    (hlocal : ∀ link ∈ stop'.task.link, link.localKey ∈ stop'.task.joinColumns) (rows : Outcome)
    {inner inner' : List Visit} (hinner : SameBut key paths inner inner')
    (hjoins : ∀ visit ∈ inner', ∀ link ∈ visit.stop.task.link,
      link.referencedKey ∈ stop'.task.joinColumns) :
    LeavesBut key paths
      (.kept stop (rows.mapRecords fun row => Record.project row stop.task.fields) inner)
      (.kept stop' (rows.mapRecords fun row => Record.project row stop'.task.fields) inner') := by
  have hfinal : (final (.kept stop (rows.mapRecords fun row => Record.project row stop.task.fields)
        inner)).mapRecords (Record.forget key paths) =
      (final (.kept stop' (rows.mapRecords fun row => Record.project row stop'.task.fields)
        inner')).mapRecords (Record.forget key paths) := by
    simp only [final_kept, Outcome.mapRecords_eq, Outcome.mapAt_mapAt]
    congr 1
    funext position row
    rw [hkin.finish_eq hsound hsound']
    refine hinner.stitched (fun visit hvisit link hlink => ?_) position _
    simp only [Stop.host, ← Outcome.mapRecords_eq]
    exact hkin.index_eq hsound hsound' (hjoins visit hvisit link hlink) rows
  refine ⟨hkin, fun link hlink joinKey => ?_, ?_⟩
  · rw [Json.forget, Json.forget, valueFor_mapRecords, valueFor_mapRecords, hfinal]
    have hjoining : ∀ joinKey,
        (rows.mapRecords fun row => Record.project row stop.task.fields).joining link.localKey joinKey =
          (rows.mapRecords fun row => Record.project row stop'.task.fields).joining link.localKey
            joinKey := by
      intro joinKey
      have hcolumn := hlocal link (hkin.link_eq.trans hlink)
      rw [← JoinIndex.positionsOf_ofOutcome, hkin.index_eq hsound hsound' hcolumn,
        JoinIndex.positionsOf_ofOutcome]
    simp only [valueFor, hkin.batch_eq, hjoining]
  · rw [Json.forget, Json.forget, ← Outcome.toJson_mapRecords, hfinal, Outcome.toJson_mapRecords]

end Visit

end NestedQuery
