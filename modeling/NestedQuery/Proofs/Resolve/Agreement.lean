import NestedQuery.Proofs.Resolve.NestedLoops
import NestedQuery.Proofs.Resolve.Stitching
/-!
# The engine answers as nested loops do

A walk that is served from a store ends in what the nested loops answer,
up to the order of keys (`Engine.agrees`). The walk fetches each node
once for all rows of its parent; that its records, told apart by the
text of their join keys, are those that a search for each parent row
finds is `Store.sorted_joining`, and the rest is bookkeeping by
induction on the plan: a record of a host in the end is alike to the
answer to the row that it was fetched from (`Store.Serves.alike`).
-/

namespace NestedQuery

/-! ## Lists of answers -/

namespace Json

variable {isGroup : Bool} {values others : List Json}

theorem same_pick (h : sameItems values others = true) :
    (pick isGroup values).same (pick isGroup others) = true := by
  unfold pick
  cases isGroup with
  | true => exact h
  | false =>
    cases values with
    | nil =>
      cases others with
      | nil => rfl
      | cons other rest => cases h
    | cons value rest =>
      cases others with
      | nil => cases h
      | cons other rest =>
        rw [sameItems, Bool.and_eq_true] at h
        exact h.1

/-- Of one record the first is taken, so nothing behind it counts. -/
theorem pick_take (values : List Json) : pick false (values.take 1) = pick false values := by
  cases values <;> rfl

end Json

/-! ## What is drawn from a store -/

namespace Outcome

/-- The outcome of a task about several records, or about one. -/
inductive Formed : Bool → Outcome → Prop where
  | records (rows : List Record) : Formed true (.records rows)
  | record (fields : Record) : Formed false (.record fields)

variable {isBatch : Bool} {outcome : Outcome}

theorem Formed.mapAt (h : outcome.Formed isBatch) (f : Nat → Record → Record) :
    (outcome.mapAt f).Formed isBatch := by
  cases h with
  | records rows => exact .records _
  | record fields => exact .record _

theorem Formed.toJson (h : outcome.Formed isBatch) :
    outcome.toJson = .pick isBatch (outcome.rows.map .obj) := by
  cases h <;> rfl

theorem rows_mapAt (f : Nat → Record → Record) :
    (outcome.mapAt f).rows = outcome.rows.mapIdx f := by
  cases outcome <;> rfl

end Outcome

/-- The rows that are drawn from a store for a task below a host, in the order of the task. -/
def Store.drawn (store : Store) (task : Task) (host? : Option Host) : List Record :=
  let rows := task.sorted (store.found (task.joinedTo host?))
  if task.batch.isBatch then rows else rows.take 1

section

variable {store : Store} {task : Task} {host? : Option Host}

/-- The join changes nothing of a task but its filter. -/
theorem Task.joinedTo_eq (task : Task) (host? : Option Host) :
    ∃ filter, task.joinedTo host? = { task with filter } := by
  unfold joinedTo
  split
  · exact ⟨task.filter, rfl⟩
  · split
    · exact ⟨task.filter, rfl⟩
    · exact ⟨_, rfl⟩

/-- What the store selects for a task that asks for no page. -/
theorem Store.select_joinedTo (store : Store) (hunpaged : task.Unpaged) (host? : Option Host) :
    (store.select (task.joinedTo host?)).rows =
        (store.drawn task host?).map (fun row => Record.project row task.fields) ∧
      (store.select (task.joinedTo host?) ≠ .absent →
        (store.select (task.joinedTo host?)).Formed task.batch.isBatch) ∧
      (store.select (task.joinedTo host?) = .absent →
        task.batch.isBatch = false ∧ task.sorted (store.found (task.joinedTo host?)) = []) := by
  obtain ⟨filter, heq⟩ := task.joinedTo_eq host?
  have hsorted : ∀ rows, (task.joinedTo host?).sorted rows = task.sorted rows := by
    intro rows
    rw [heq]
    rfl
  have hpagedJoined : ∀ rows, (task.joinedTo host?).paged rows = rows := by
    intro rows
    rw [heq]
    exact hunpaged.paged rows
  have hfields : (task.joinedTo host?).fields = task.fields := by rw [heq]
  have hbatch : (task.joinedTo host?).batch = task.batch := by rw [heq]
  simp only [select, drawn, hsorted, hpagedJoined, hfields, hbatch]
  generalize task.sorted (store.found (task.joinedTo host?)) = rows
  cases task.batch.isBatch with
  | true => exact ⟨rfl, fun _ => .records _, fun h => by cases h⟩
  | false =>
    cases rows with
    | nil => exact ⟨rfl, fun h => absurd rfl h, fun _ => ⟨rfl, rfl⟩⟩
    | cons row rest => exact ⟨rfl, fun _ => .record _, fun h => by cases h⟩

end

/-! ## What a visit writes -/

namespace Visit

variable {stop : Stop} {fetched : Outcome} {inner : List Visit} {rows : List Record}
  {answers : Record → Record}

/-- The records of a visit are alike to the answers to the rows that they were fetched from. -/
def Answers (stop : Stop) (fetched : Outcome) (inner : List Visit) (rows : List Record)
    (answers : Record → Record) : Prop :=
  ∀ position row, rows[position]? = some row →
    Record.Alike (stitchAll (stop.host fetched) inner position
      (stop.task.finish (Record.project row stop.task.fields))) (answers row)

/-- The record that a row at a position ends up as. -/
def shownAt (stop : Stop) (fetched : Outcome) (inner : List Visit) (entry : Record × Nat) : Record :=
  stitchAll (stop.host fetched) inner entry.2
    (stop.task.finish (Record.project entry.1 stop.task.fields))

/-- All that is left of a visit, row by row. -/
theorem toJson_final (inner : List Visit) {isBatch : Bool}
    (hrows : fetched.rows = rows.map fun row => Record.project row stop.task.fields)
    (hformed : fetched.Formed isBatch) :
    (final (.kept stop fetched inner)).toJson =
      .pick isBatch (rows.zipIdx.map fun entry => .obj (shownAt stop fetched inner entry)) := by
  rw [final_kept, (hformed.mapAt _).toJson, Outcome.rows_mapAt, hrows]
  refine congrArg (Json.pick isBatch) (List.ext_getElem? fun i => ?_)
  simp only [List.getElem?_map, List.getElem?_mapIdx, List.getElem?_zipIdx, Nat.zero_add]
  cases rows[i]? <;> rfl

/-- The record that is left at the position of a row. -/
theorem record?_final_kept
    (hrows : fetched.rows = rows.map fun row => Record.project row stop.task.fields)
    {entry : Record × Nat} (hmem : entry ∈ rows.zipIdx) :
    (final (.kept stop fetched inner)).record? entry.2 = some (shownAt stop fetched inner entry) := by
  rw [record?_final, Outcome.record?_eq, hrows, List.getElem?_map,
    List.mem_zipIdx_iff_getElem?.1 hmem]
  rfl

/-- The value written under a batch is picked from the records that join, one way or the other. -/
theorem valueFor_eq_pick {link : Link} {key : Json} {outcome : Outcome}
    (hunder : stop.task.batch.underBatch = true)
    (hfound : ∀ position ∈ fetched.joining link.localKey key, (outcome.record? position).isSome) :
    (Visit.kept stop fetched inner).valueFor link outcome key =
      .pick stop.task.batch.isGroup
        (((fetched.joining link.localKey key).filterMap outcome.record?).map .obj) := by
  simp only [valueFor, if_pos hunder]
  cases stop.task.batch.isGroup with
  | true => rfl
  | false =>
    cases hjoining : fetched.joining link.localKey key with
    | nil => rfl
    | cons first rest =>
      -- the first position that is found is that of a record
      obtain ⟨record, hrecord⟩ := Option.isSome_iff_exists.1
        (hfound first (hjoining ▸ List.mem_cons_self ..))
      rw [List.filterMap_cons, hrecord, List.head?_cons, Option.bind_some, hrecord]
      rfl

/-- What is left of a visit under a batch, and joins to a key, row by row. -/
theorem valueFor_eq
    (hrows : fetched.rows = rows.map fun row => Record.project row stop.task.fields)
    (hunder : stop.task.batch.underBatch = true) {link : Link}
    (hcolumn : ∀ row ∈ rows,
      (Record.project row stop.task.fields).get? link.localKey = row.get? link.localKey)
    (key : Json) :
    (Visit.kept stop fetched inner).valueFor link (final (.kept stop fetched inner)) key =
      .pick stop.task.batch.isGroup ((rows.zipIdx.filter fun entry =>
        entry.1.joins link.localKey key).map fun entry => .obj (shownAt stop fetched inner entry)) := by
  have hfound : fetched.joining link.localKey key =
      (rows.zipIdx.filter fun entry => entry.1.joins link.localKey key).map Prod.snd := by
    rw [Outcome.joining, hrows, List.zipIdx_map, List.filter_map, List.map_map]
    refine congrArg (List.map Prod.snd) (List.filter_congr fun entry hmem => ?_)
    have hrow : entry.1 ∈ rows := List.mem_of_getElem? (List.mem_zipIdx_iff_getElem?.1 hmem)
    show (Record.project entry.1 stop.task.fields).joins link.localKey key = _
    rw [Record.joins, hcolumn entry.1 hrow, Record.joins]
  have hsome : ∀ position ∈ fetched.joining link.localKey key,
      ((final (.kept stop fetched inner)).record? position).isSome := by
    intro position hmem
    rw [hfound] at hmem
    obtain ⟨entry, hentry, rfl⟩ := List.mem_map.1 hmem
    rw [record?_final_kept hrows (List.mem_of_mem_filter hentry), Option.isSome_some]
  have hrecords : (fetched.joining link.localKey key).filterMap
      (final (.kept stop fetched inner)).record? =
        (rows.zipIdx.filter fun entry => entry.1.joins link.localKey key).map
          (shownAt stop fetched inner) := by
    rw [hfound, List.filterMap_map, ← List.filterMap_eq_map]
    exact List.filterMap_congr fun entry hmem =>
      record?_final_kept hrows (List.mem_of_mem_filter hmem)
  rw [valueFor_eq_pick hunder hsome, hrecords, List.map_map]
  rfl

/-- What is to be shown of each row, told with the positions. -/
theorem map_obj_eq (rows : List Record) (answers : Record → Record) (p : Record → Bool) :
    (rows.filter p).map (fun row => Json.obj (answers row)) =
      (rows.zipIdx.filter fun entry => p entry.1).map fun entry => .obj (answers entry.1) := by
  conv_lhs => rw [← List.zipIdx_map_fst 0 rows, List.filter_map, List.map_map]
  rfl

/-- All that is left of a visit is what answers its rows. -/
theorem same_final (h : Answers stop fetched inner rows answers) {isBatch : Bool}
    (hrows : fetched.rows = rows.map fun row => Record.project row stop.task.fields)
    (hformed : fetched.Formed isBatch) :
    (final (.kept stop fetched inner)).toJson.same
      (.pick isBatch (rows.map fun row => .obj (answers row))) = true := by
  have hanswers := map_obj_eq rows answers fun _ => true
  simp only [List.filter_true] at hanswers
  rw [toJson_final inner hrows hformed, hanswers]
  refine Json.same_pick (Json.sameItems_map fun entry hmem => (h entry.2 entry.1 ?_).same)
  exact List.mem_zipIdx_iff_getElem?.1 hmem

/-- What is left of a visit under a batch, and joins to a key, is what answers the rows that do. -/
theorem same_valueFor (h : Answers stop fetched inner rows answers)
    (hrows : fetched.rows = rows.map fun row => Record.project row stop.task.fields)
    (hunder : stop.task.batch.underBatch = true) {link : Link}
    (hcolumn : ∀ row ∈ rows,
      (Record.project row stop.task.fields).get? link.localKey = row.get? link.localKey)
    (key : Json) :
    ((Visit.kept stop fetched inner).valueFor link (final (.kept stop fetched inner)) key).same
      (.pick stop.task.batch.isGroup ((rows.filter fun row => row.joins link.localKey key).map
        fun row => .obj (answers row))) = true := by
  rw [valueFor_eq hrows hunder hcolumn, map_obj_eq]
  refine Json.same_pick (Json.sameItems_map fun entry hmem => (h entry.2 entry.1 ?_).same)
  exact List.mem_zipIdx_iff_getElem?.1 (List.mem_of_mem_filter hmem)

end Visit

/-! ## What is supposed -/

/-- A store whose rows repeat no key, and hold plain values in the columns by which models are
joined, where they hold any. -/
structure Store.Plain (catalog : Catalog) (store : Store) : Prop where
  distinct : ∀ model, ∀ row ∈ store.rows model, (Json.obj row).Distinct
  joined : ∀ child ∈ catalog.models, ∀ parent ∈ catalog.models, ∀ link,
    child.link? parent = some link →
      (∀ row ∈ store.rows child.name, row.PlainAt link.localKey) ∧
        ∀ row ∈ store.rows parent.name, row.PlainAt link.referencedKey

/-- A sound task that asks for no page, and sorts by columns of one kind each. -/
structure Task.Plain (catalog : Catalog) (store : Store) (task : Task) : Prop where
  sound : task.Sound catalog
  unpaged : task.Unpaged
  sorts : task.SortsPlainly (store.rows task.model)

section

variable {catalog : Catalog} {store : Store} {task : Task} {host? : Option Host}

/-- What is drawn for a task are rows of its table. -/
theorem Store.mem_rows_of_drawn {row : Record} (hmem : row ∈ store.drawn task host?) :
    row ∈ store.rows task.model := by
  obtain ⟨filter, heq⟩ := task.joinedTo_eq host?
  have hmodel : (task.joinedTo host?).model = task.model := by rw [heq]
  have hsorted : row ∈ task.sorted (store.found (task.joinedTo host?)) := by
    unfold drawn at hmem
    split at hmem
    · exact hmem
    · exact List.mem_of_mem_take hmem
  rw [← hmodel]
  exact List.mem_of_mem_filter (Task.mem_sorted.1 hsorted)

/-- A visit that fetched something shows what was drawn for it. -/
theorem Store.shows_select (hsound : task.Sound catalog) (hunpaged : task.Unpaged) {fetched : Outcome}
    (hselect : store.select (task.joinedTo host?) = fetched) (hpresent : fetched ≠ .absent)
    (stop : Stop) (hstop : stop.task = task) :
    (stop.host fetched).Shows store (store.drawn task host?) := by
  subst hstop
  obtain ⟨hrows, hformed, -⟩ := store.select_joinedTo hunpaged host?
  rw [hselect] at hrows hformed
  refine ⟨hrows, fun row hmem => mem_rows_of_drawn hmem, fun hsingle => ?_, fun row _ column hcolumn => ?_⟩
  · have hone : fetched.Formed stop.task.batch.isBatch := hformed hpresent
    rw [show stop.task.batch.isBatch = false from hsingle] at hone
    cases hone with
    | record fields => exact ⟨fields, rfl⟩
  · exact Task.get?_project_of_mem fun fields hfields =>
      (hsound.listing fields hfields).2 column hcolumn

/-- A task below a host that shows some rows joins to them. -/
theorem Task.Below.joinsRows (hstore : store.Plain catalog) {host : Host} {drawn : List Record}
    (hbelow : task.Below catalog (some host.task)) (hshows : host.Shows store drawn) :
    ∃ link, task.JoinsRows store link host drawn := by
  obtain ⟨link, hlink, -, hcolumn, child, hchild, parent, hparent, hchildName, hparentName, hjoin⟩ :=
    hbelow.link
  obtain ⟨hchildren, hparents⟩ := hstore.joined child hchild parent hparent link hjoin
  rw [hchildName] at hchildren
  rw [hparentName] at hparents
  exact ⟨link, ⟨hshows, hlink, hbelow.underBatch, hcolumn⟩,
    fun row hmem => hparents row (hshows.table row hmem), hchildren⟩

/-- Picking from what was drawn is picking from all that was found. -/
theorem Store.pick_drawn (store : Store) (host? : Option Host) (f : Record → Json) :
    Json.pick task.batch.isBatch ((store.drawn task host?).map f) =
      .pick task.batch.isBatch ((task.sorted (store.found (task.joinedTo host?))).map f) := by
  unfold drawn
  cases task.batch.isBatch with
  | true => rfl
  | false =>
    rw [← Json.pick_take (List.map f (task.sorted (store.found (task.joinedTo host?)))),
      ← List.map_take]
    rfl

end

/-! ## One visit -/

section

variable {catalog : Catalog} {store : Store} {task : Task} {host : Host} {drawn : List Record}
  {link : Link} {position : Nat} {row : Record}

/-- The key with which a task writes into a record of its host is that of the row. -/
theorem Task.JoinsShown.targetKey? (h : task.JoinsShown store link host drawn)
    (hrow : drawn[position]? = some row) :
    task.targetKey? link host position =
      if host.task.batch.isBatch then row.get? link.referencedKey else some .null := by
  have hmem : row ∈ drawn := List.mem_of_getElem? hrow
  rw [Task.targetKey?, h.underBatch]
  cases hbatch : host.task.batch.isBatch with
  | true =>
    rw [if_pos rfl, if_pos rfl, Outcome.record?_eq, h.shows.rows, List.getElem?_map, hrow]
    exact h.shows.columns row hmem _ h.column
  | false =>
    obtain ⟨only, rfl, -⟩ := h.shows.exists_single hbatch
    have hposition : position = 0 := by
      have hlt := (List.getElem?_eq_some_iff.1 hrow).1
      simpa using hlt
    rw [if_neg Bool.false_ne_true, if_neg Bool.false_ne_true, if_pos hposition]

/-- Below a host of one row the store finds what joins to this row. -/
theorem Store.found_single (h : task.JoinsRows store link host drawn)
    (hsingle : host.task.batch.isBatch = false) (hmem : row ∈ drawn) :
    store.found (task.joinedTo (some host)) = (store.rows task.model).filter fun child =>
      link.joins row child && task.asks child := by
  obtain ⟨only, rfl, -⟩ := h.shows.exists_single hsingle
  obtain rfl := List.mem_singleton.1 hmem
  rw [found_joinedTo h]
  simp only [List.any_cons, List.any_nil, Bool.or_false]

/-- A visit that found nothing leaves null, and so does the search for the row. -/
theorem Visit.same_missed (h : task.JoinsRows store link host drawn)
    (hbelow : task.Below catalog (some host.task)) (hplain : task.Plain catalog store)
    (hselect : store.select (task.joinedTo (some host)) = .absent) (hmem : row ∈ drawn)
    (nested : List Branch) :
    Json.null.same (store.answer Task.skips (link.joins row) (.node task nested)) = true := by
  obtain ⟨-, -, habsent⟩ := store.select_joinedTo hplain.unpaged (some host)
  obtain ⟨hbatch, hnone⟩ := habsent hselect
  have hgroup := hbelow.isBatch
  rw [hbatch, eq_comm, Bool.or_eq_false_iff] at hgroup
  have hsingle : host.task.batch.isBatch = false := h.underBatch ▸ hgroup.2
  rw [Store.found_single h hsingle hmem] at hnone
  rw [Store.answer, hgroup.1]
  simp only [hnone]
  rfl

/-- **What a visit writes for a row is the answer to the search for this row**, given that its
records are alike to the answers to theirs. -/
theorem Visit.same_kept {stop : Stop} {fetched : Outcome} {inner : List Visit} {nested : List Branch}
    (h : stop.task.JoinsRows store link host drawn)
    (hbelow : stop.task.Below catalog (some host.task)) (hplain : stop.task.Plain catalog store)
    (hselect : store.select (stop.task.joinedTo (some host)) = fetched) (hpresent : fetched ≠ .absent)
    (hlocal : link.localKey ∈ stop.task.joinColumns)
    (hanswers : Visit.Answers stop fetched inner (store.drawn stop.task (some host))
      fun row => store.answerRow Task.skips stop.task row nested)
    (hrow : drawn[position]? = some row) {key : Json}
    (hkey : stop.task.targetKey? link host position = some key) :
    ((Visit.kept stop fetched inner).valueFor link (final (.kept stop fetched inner)) key).same
      (store.answer Task.skips (link.joins row) (.node stop.task nested)) = true := by
  have hmem : row ∈ drawn := List.mem_of_getElem? hrow
  obtain ⟨hrows, hformed, -⟩ := store.select_joinedTo hplain.unpaged (some host)
  have hshows := store.shows_select hplain.sound hplain.unpaged hselect hpresent stop rfl
  rw [hselect] at hrows hformed
  have hisBatch := hbelow.isBatch
  rw [h.targetKey? hrow, ← h.underBatch] at hkey
  rw [Store.answer]
  cases hunder : stop.task.batch.underBatch with
  | true =>
    rw [hunder, if_pos rfl] at hkey
    have hall : stop.task.batch.isBatch = true := by rw [hisBatch, hunder, Bool.or_true]
    have hvalue := Visit.same_valueFor hanswers hrows hunder
      (fun row hmem => hshows.columns row hmem _ hlocal) key
    have hdrawn : store.drawn stop.task (some host) =
        stop.task.sorted (store.found (stop.task.joinedTo (some host))) := by
      rw [Store.drawn, hall, if_pos rfl]
    rw [hdrawn, Store.sorted_joining h hplain.sorts hmem hkey] at hvalue
    exact hvalue
  | false =>
    have hsingle : host.task.batch.isBatch = false := h.underBatch ▸ hunder
    have hgroup : stop.task.batch.isBatch = stop.task.batch.isGroup := by
      rw [hisBatch, hunder, Bool.or_false]
    have hvalue := Visit.same_final hanswers hrows (hformed hpresent)
    rw [store.pick_drawn, hgroup, Store.found_single h hsingle hmem] at hvalue
    simp only [valueFor, hunder]
    exact hvalue

/-- A branch whose task writes under one key writes under the key of the branch. -/
theorem Branch.keys_root (branch : Branch) (h : ∃ key, branch.root.path.keys = [key]) :
    branch.root.path.keys = [branch.key] := by
  obtain ⟨key, hkey⟩ := h
  rw [Branch.key, hkey]
  rfl

/-- One more visit is stitched into a record as one more answer is put into a row. -/
theorem Visit.alike_stitchAt (visit : Visit) {nested rest : List Branch}
    (h : visit.stop.task.JoinsRows store link host drawn)
    (hkeys : ∃ key, visit.stop.task.path.keys = [key]) (hrow : drawn[position]? = some row)
    (hvalue : ∀ key, visit.stop.task.targetKey? link host position = some key →
      (visit.valueFor link visit.final key).same
        (store.answer Task.skips (link.joins row) (.node visit.stop.task nested)) = true)
    {record : Record} (halike : record.Alike (store.answerRow Task.skips host.task row rest)) :
    Record.Alike (visit.stitchAt host visit.final position record)
      (store.answerRow Task.skips host.task row (.node visit.stop.task nested :: rest)) := by
  have hkey : visit.stop.task.path.keys = [(Branch.node visit.stop.task nested).key] :=
    (Branch.node visit.stop.task nested).keys_root hkeys
  have htarget := h.targetKey? hrow
  simp only [Visit.stitchAt, Store.answerRow, Branch.root_node, h.carried, hkey]
  cases hfound : visit.stop.task.targetKey? link host position with
  | none =>
    rw [hfound] at htarget
    split at htarget
    · next hbatch =>
      have hlacks : row.has link.referencedKey = false := by
        rw [Keyed.has, ← htarget]
        rfl
      simpa [Task.skips, hbatch, hlacks] using halike
    · cases htarget
  | some value =>
    rw [hfound] at htarget
    have hcarries : host.task.skips link row = false := by
      split at htarget
      · rw [Task.skips, Keyed.has, ← htarget]
        simp
      · next hbatch => simp [Task.skips, hbatch]
    rw [hcarries, if_neg Bool.false_ne_true]
    exact halike.put _ (hvalue value hfound)

end

/-! ## A whole walk -/

/-- **The records of a host in the end are alike to the answers to its rows.** By induction on the
visits: those nested in a visit are done when its own records are stitched into the host. -/
theorem Store.Serves.alike {catalog : Catalog} {store : Store} (hstore : store.Plain catalog)
    {host? : Option Host} {branches : List Branch} {visits : List Visit}
    (h : store.Serves host? branches visits)
    (hfits : Branch.Fits catalog (host?.map Host.task) branches)
    (hplain : ∀ task ∈ Branch.tasksOf branches, task.Plain catalog store) {host : Host}
    (hhost : host? = some host) (hlisting : ∀ fields, host.task.fields = some fields → Listing fields)
    {drawn : List Record} (hshows : host.Shows store drawn) {position : Nat} {row : Record}
    (hrow : drawn[position]? = some row) :
    Record.Alike (Visit.stitchAll host visits position
      (host.task.finish (Record.project row host.task.fields)))
      (store.answerRow Task.skips host.task row branches) := by
  induction h generalizing host drawn position row with
  | nil =>
    rw [answerRow]
    exact Task.alike_finish hlisting
      (hstore.distinct _ row (hshows.table row (List.mem_of_getElem? hrow)))
  | @missed _ stop nested rest visits hselect _ ih =>
    subst hhost
    simp only [Branch.tasksOf_node, List.mem_cons, List.mem_append] at hplain
    cases hfits with
    | node hbelow _ _ hrest =>
      obtain ⟨link, hjoins⟩ := hbelow.joinsRows hstore hshows
      have hroot := hplain stop.task (Or.inl rfl)
      have halike := ih hrest (fun t ht => hplain t (Or.inr (Or.inr ht))) rfl hlisting hshows hrow
      refine Visit.alike_stitchAt (.missed stop none) hjoins (hroot.sound.keys hroot.unpaged) hrow
        (fun key _ => ?_) halike
      exact Visit.same_missed hjoins hbelow hroot hselect (List.mem_of_getElem? hrow) nested
  | @kept _ stop fetched nested rest inner visits hselect hpresent _ _ ihinner ih =>
    subst hhost
    simp only [Branch.tasksOf_node, List.mem_cons, List.mem_append] at hplain
    cases hfits with
    | node hbelow _ hnested hrest =>
      obtain ⟨link, hjoins⟩ := hbelow.joinsRows hstore hshows
      have hroot := hplain stop.task (Or.inl rfl)
      have halike := ih hrest (fun t ht => hplain t (Or.inr (Or.inr ht))) rfl hlisting hshows hrow
      have hanswers : Visit.Answers stop fetched inner (store.drawn stop.task (some host))
          fun row => store.answerRow Task.skips stop.task row nested := by
        intro i r hr
        exact ihinner hnested (fun t ht => hplain t (Or.inr (Or.inl ht))) rfl
          (fun fields hfields => (hroot.sound.listing fields hfields).1)
          (store.shows_select hroot.sound hroot.unpaged hselect hpresent stop rfl) hr
      refine Visit.alike_stitchAt (.kept stop fetched inner) hjoins
        (hroot.sound.keys hroot.unpaged) hrow (fun key hkey => ?_) halike
      have hlocal : link.localKey ∈ stop.task.joinColumns := by
        obtain ⟨other, hother, hlocal, -⟩ := hbelow.link
        obtain rfl := Option.some.inj (hother.symm.trans hjoins.carried)
        exact hlocal
      exact Visit.same_kept hjoins hbelow hroot hselect hpresent hlocal hanswers hrow hkey

/-- A node at the top is answered as well: nothing constrains it but its own filter. -/
theorem Store.Serves.same_top {catalog : Catalog} {store : Store} (hstore : store.Plain catalog)
    {branches : List Branch} {visits : List Visit} (h : store.Serves none branches visits)
    (hfits : Branch.Fits catalog none branches)
    (hplain : ∀ task ∈ Branch.tasksOf branches, task.Plain catalog store) :
    List.Forall₂ (fun visit branch => visit.stop.task = branch.root ∧
      visit.final.toJson.same (store.answer Task.skips (fun _ => true) branch) = true) visits branches := by
  have hfound : ∀ task : Task, task.link = none → store.found (task.joinedTo none) =
      (store.rows task.model).filter fun row => true && task.asks row := by
    intro task hlink
    refine List.filter_congr fun row _ => ?_
    rw [Bool.true_and, ← Task.admits_of_link_none hlink]
    rfl
  generalize hnone : (none : Option Host) = host? at h
  induction h with
  | nil => exact .nil
  | @missed _ stop nested rest visits hselect _ ih =>
    subst hnone
    simp only [Branch.tasksOf_node, List.mem_cons, List.mem_append] at hplain
    cases hfits with
    | node hbelow _ _ hrest =>
      have hroot := hplain stop.task (Or.inl rfl)
      refine .cons ⟨rfl, ?_⟩ (ih hrest (fun t ht => hplain t (Or.inr (Or.inr ht))) rfl)
      obtain ⟨hbatch, hsorted⟩ := (store.select_joinedTo hroot.unpaged none).2.2 hselect
      have hgroup := hbelow.isBatch
      rw [hbatch, eq_comm, Bool.or_eq_false_iff] at hgroup
      rw [hfound _ hbelow.link] at hsorted
      rw [answer, hgroup.1]
      simp only [hsorted]
      rfl
  | @kept _ stop fetched nested rest inner visits hselect hpresent hinner _ _ ih =>
    subst hnone
    simp only [Branch.tasksOf_node, List.mem_cons, List.mem_append] at hplain
    cases hfits with
    | node hbelow _ hnested hrest =>
      have hroot := hplain stop.task (Or.inl rfl)
      refine .cons ⟨rfl, ?_⟩ (ih hrest (fun t ht => hplain t (Or.inr (Or.inr ht))) rfl)
      obtain ⟨hrows, hformed, -⟩ := store.select_joinedTo hroot.unpaged none
      rw [hselect] at hrows hformed
      have hanswers : Visit.Answers stop fetched inner (store.drawn stop.task none)
          fun row => store.answerRow Task.skips stop.task row nested := by
        intro i r hr
        exact hinner.alike hstore hnested (fun t ht => hplain t (Or.inr (Or.inl ht))) rfl
          (fun fields hfields => (hroot.sound.listing fields hfields).1)
          (store.shows_select hroot.sound hroot.unpaged hselect hpresent stop rfl) hr
      have hvalue := Visit.same_final hanswers hrows (hformed hpresent)
      have hgroup : stop.task.batch.isBatch = stop.task.batch.isGroup := by
        have hunder : stop.task.batch.underBatch = false := hbelow.underBatch
        rw [hbelow.isBatch, hunder, Bool.or_false]
      rw [store.pick_drawn, hgroup, hfound _ hbelow.link] at hvalue
      rw [answer]
      exact hvalue

/-! ## The data tree -/

/-- The data tree with the final outcome of one more visit at the top. -/
def Visit.collectInto (data : Json) (visit : Visit) : Json :=
  data.writeAt visit.stop.task.path.keys visit.final.toJson

namespace Visit

variable {visit : Visit} {visits : List Visit} {key : String}

/-- Visits at the top leave alone what is under other keys than theirs. -/
theorem get?_collected_ne (h : ∀ visit ∈ visits, visit.segment? ≠ some key) (record : Record) :
    (visits.foldl collectInto (.obj record)).get? key = record.get? key := by
  induction visits generalizing record with
  | nil => rfl
  | cons first rest ih =>
    obtain ⟨hfirst, hrest⟩ := List.forall_mem_cons.1 h
    exact (ih hrest _).trans (Json.get?_writeInto_ne hfirst record _)

/-- **Under the key of a visit at the top is what the visit alone would put there.** -/
theorem get?_collected (hnodup : (visits.map segment?).Nodup) (hmem : visit ∈ visits)
    (hkey : visit.segment? = some key) (record : Record) :
    (visits.foldl collectInto (.obj record)).get? key =
      (collectInto (.obj record) visit).get? key := by
  induction visits generalizing record with
  | nil => cases hmem
  | cons first rest ih =>
    obtain ⟨hfirst, hrest⟩ := List.nodup_cons.1 hnodup
    rw [List.foldl_cons]
    rcases List.mem_cons.1 hmem with rfl | hmem
    · -- nobody writes under the key afterwards
      refine get?_collected_ne (fun other hother heq => hfirst ?_) _
      rw [hkey, ← heq]
      exact List.mem_map_of_mem hother
    · -- and nobody did before
      refine (ih hrest hmem _).trans (Json.get?_writeInto_congr hkey ?_ _)
      refine Json.get?_writeInto_ne (fun heq => hfirst ?_) record _
      have hsegment : first.segment? = visit.segment? := heq.trans hkey.symm
      rw [hsegment]
      exact List.mem_map_of_mem hmem

end Visit

namespace Engine

/-- The data tree with the outcome of one more task. -/
def collectStep (data : Json) (entry : Task × Outcome) : Json :=
  if entry.1.isNested then data else data.writeAt entry.1.path.keys entry.2.toJson

theorem collect_eq (tasks : List Task) (slots : Slots) :
    collect tasks slots = (tasks.zip slots).foldl collectStep (.obj []) :=
  rfl

/-- Tasks that are nested leave the data tree alone. -/
theorem foldl_collectStep_nested {tasks : List Task} (h : ∀ task ∈ tasks, task.isNested = true)
    (slots : Slots) (data : Json) : (tasks.zip slots).foldl collectStep data = data := by
  induction tasks generalizing slots with
  | nil => rfl
  | cons task rest ih =>
    obtain ⟨hfirst, hrest⟩ := List.forall_mem_cons.1 h
    cases slots with
    | nil => rfl
    | cons outcome slots =>
      rw [List.zip_cons_cons, List.foldl_cons, collectStep, if_pos hfirst]
      exact ih hrest slots

theorem isNested_of_fits {catalog : Catalog} {parent : Task} {branches : List Branch}
    (h : Branch.Fits catalog (some parent) branches) :
    ∀ task ∈ Branch.tasksOf branches, task.isNested = true := by
  intro task hmem
  rcases Branch.exists_nests h hmem with ⟨branch, hbranch, rfl⟩ | ⟨host, hnests⟩
  · exact (Branch.root_below h hbranch).isNested
  · exact (h.below_of_nests hnests).isNested

variable {σ : Type} {engine : Engine σ} {operation : Operation} {input : Record}
  {branches : List Branch} {place : Nat} {progress progress' : Progress} {s s' : σ}
  {visits : List Visit} {catalog : Catalog}

/-- The data tree takes the final outcomes of the visits at the top, in order. -/
theorem Follows.foldl_collectStep
    (h : engine.Follows operation input branches place progress s visits progress' s')
    (hfits : Branch.Fits catalog none branches) (data : Json) :
    ((Branch.tasksOf branches).zip (Visit.slotsOf Visit.final visits)).foldl collectStep data =
      visits.foldl Visit.collectInto data := by
  induction h generalizing data with
  | nil => simp [Visit.slotsOf]
  | @missed task nested rest place progress _ _ _ _ fault visits _ _ ih =>
    cases hfits with
    | node hbelow hcount hnested hrest =>
      have hroot : task.isNested = false := hbelow.isNested
      rw [Branch.tasksOf_node, Visit.slotsOf, List.replicate_succ, List.cons_append,
        List.zip_cons_cons, List.foldl_cons, collectStep, hroot, if_neg Bool.false_ne_true,
        List.zip_append (by simp [hcount]), List.foldl_append,
        foldl_collectStep_nested (isNested_of_fits hnested), ih hrest, List.foldl_cons,
        Visit.collectInto, Visit.final]
      rfl
  | @kept task nested rest place progress _ _ _ _ _ _ fetched inner visits _ hinner _ _ ih =>
    cases hfits with
    | node hbelow hcount hnested hrest =>
      have hroot : task.isNested = false := hbelow.isNested
      rw [Branch.tasksOf_node, Visit.slotsOf, List.zip_cons_cons, List.foldl_cons, collectStep, hroot,
        if_neg Bool.false_ne_true, List.zip_append (hinner.length_slotsOf hnested Visit.final).symm,
        List.foldl_append, foldl_collectStep_nested (isNested_of_fits hnested), ih hrest, List.foldl_cons]
      rfl

/-- What is collected in the end is what the visits at the top leave, one written after the other. -/
theorem Follows.collect_visits {request : Record}
    (h : engine.Follows operation request (engine.catalog.forest request) 0
      (.start (engine.catalog.plan request)) s visits progress' s') :
    collect (engine.catalog.plan request).tasks progress'.settled =
      visits.foldl Visit.collectInto (.obj []) := by
  rw [collect_eq, h.settled, Catalog.plan_tasks]
  exact h.foldl_collectStep (engine.catalog.fits_forest request) (.obj [])

/-- A run answers with what the visits of its walk leave at the top. -/
theorem run_follows (engine : Engine σ) (operation : Operation) (request : Record) (s : σ) :
    ∃ visits final s',
      engine.Follows operation request (engine.catalog.forest request) 0
        (.start (engine.catalog.plan request)) s visits final s' ∧
      (engine.run operation request).run s =
        (⟨visits.foldl Visit.collectInto (.obj []), final.errors⟩, s') := by
  obtain ⟨visits, final, s', hfollows, hrun⟩ := run_settled engine operation request s
  exact ⟨visits, final, s', hfollows, hfollows.collect_visits ▸ hrun⟩

end Engine

/-- Writes under different keys are all there is, in order. -/
theorem Keyed.ofWrites_eq_self {α : Type} {writes : Keyed α} (h : (keys writes).Nodup) :
    ofWrites writes = writes := by
  have hput : ∀ (entries : Keyed α) (key : String) (value : α), key ∉ keys entries →
      put entries key value = entries ++ [(key, value)] := by
    intro entries key value hfresh
    induction entries with
    | nil => rfl
    | cons entry rest ih =>
      obtain ⟨k, v⟩ := entry
      have hne : k ≠ key := fun heq => hfresh (heq ▸ List.mem_cons_self ..)
      rw [put, if_neg hne, ih fun hmem => hfresh (List.mem_cons_of_mem _ hmem)]
      rfl
  have hfold : ∀ start : Keyed α, (keys (start ++ writes)).Nodup →
      writes.foldl (fun entries write => put entries write.1 write.2) start = start ++ writes := by
    clear h
    induction writes with
    | nil => simp
    | cons write rest ih =>
      intro start hnodup
      obtain ⟨key, value⟩ := write
      have hfresh : key ∉ keys start := by
        intro hmem
        rw [keys, List.map_append] at hnodup
        exact (List.nodup_append.1 hnodup).2.2 key hmem key (List.mem_cons_self ..) rfl
      rw [List.foldl_cons, hput start key value hfresh, ih (start ++ [(key, value)]) (by simpa using hnodup)]
      simp
  exact hfold [] h

/-- Answers written one after the other make records that are alike. -/
theorem Store.alike_answers {store : Store} {visits : List Visit} {branches : List Branch}
    (h : List.Forall₂ (fun visit branch => visit.stop.task = branch.root ∧
      visit.final.toJson.same (store.answer Task.skips (fun _ => true) branch) = true) visits branches)
    (hkeys : ∀ branch ∈ branches, branch.root.path.keys = [branch.key]) {a b : Record}
    (halike : a.Alike b) :
    ∃ record, visits.foldl Visit.collectInto (.obj a) = .obj record ∧
      Record.Alike record ((branches.map fun branch =>
        (branch.key, store.answer Task.skips (fun _ => true) branch)).foldl
          (fun entries write => Keyed.put entries write.1 write.2) b) := by
  induction h generalizing a b with
  | nil => exact ⟨a, rfl, halike⟩
  | @cons visit branch visits branches hhead _ ih =>
    obtain ⟨hroot, hsame⟩ := hhead
    obtain ⟨hkey, hrest⟩ := List.forall_mem_cons.1 hkeys
    have hwrite : visit.collectInto (.obj a) =
        .obj (Keyed.put a branch.key visit.final.toJson) := by
      rw [Visit.collectInto, hroot, hkey]
      rfl
    rw [List.foldl_cons, hwrite, List.map_cons, List.foldl_cons]
    exact ih hrest (halike.put branch.key hsame)

/-- The branches of a plan at the top have different keys. -/
theorem Catalog.nodup_keys_forest (catalog : Catalog) {request : Record}
    (hrequest : (Json.obj request).Distinct)
    (hkeys : ∀ branch ∈ catalog.forest request, branch.root.path.keys = [branch.key]) :
    ((catalog.forest request).map Branch.key).Nodup := by
  have hsegments := (catalog.apart_forest hrequest).nodup
  have hsegment : (catalog.forest request).map Branch.segment? =
      ((catalog.forest request).map Branch.key).map some := by
    rw [List.map_map]
    refine List.map_congr_left fun branch hmem => ?_
    rw [Branch.segment?, hkeys branch hmem]
    rfl
  rw [hsegment] at hsegments
  exact hsegments.of_map some

namespace Engine

/-- A query of which the plan reports nothing and is served from memory reports nothing, and gives the
tree of its visits. -/
theorem run_serves {catalog : Catalog} {request : Record} (herrors : (catalog.plan request).errors = [])
    (hmemory : ∀ task ∈ Branch.tasksOf (catalog.forest request), task.InMemory) (store : Store) :
    ∃ visits, store.Serves none (catalog.forest request) visits ∧
      ((ofCatalog catalog).run .query request).run store =
        (⟨visits.foldl Visit.collectInto (.obj []), []⟩, store) := by
  obtain ⟨visits, final, store', hfollows, hrun⟩ :=
    run_follows (ofCatalog catalog) .query request store
  obtain ⟨rfl, hserves⟩ := hfollows.serves none (catalog.fits_forest request) (by simp) hmemory
  have hfinal : final.errors = [] := by
    rw [hfollows.errors, hserves.faultsOf]
    exact List.append_eq_nil_iff.2 ⟨herrors, rfl⟩
  exact ⟨visits, hserves, by rw [hrun, hfinal]⟩

/-- **The engine answers as nested loops do.** A query whose plan is without errors, asks for no
page and sorts by columns of one kind each, leaves a store of plain join columns as it is, meets no
fault, and gives what the nested loops give. -/
theorem agrees {catalog : Catalog} (haccepted : catalog.Accepted) (hmemory : catalog.InMemory)
    {store : Store} (hstore : store.Plain catalog) {request : Record}
    (hrequest : (Json.obj request).Distinct) (herrors : (catalog.plan request).errors = [])
    (hunpaged : ∀ task ∈ (catalog.plan request).tasks, task.Unpaged)
    (hsorts : ∀ task ∈ (catalog.plan request).tasks, task.SortsPlainly (store.rows task.model)) :
    ∃ data, ((ofCatalog catalog).run .query request).run store = (⟨data, []⟩, store) ∧
      data.same (store.answerAll Task.skips (catalog.forest request)) = true := by
  have hfits : Branch.Fits catalog none (catalog.forest request) := catalog.fits_forest request
  have hsound := Catalog.sound_plan haccepted hrequest herrors
  have hplain : ∀ task ∈ Branch.tasksOf (catalog.forest request), task.Plain catalog store := by
    intro task hmem
    rw [← Catalog.plan_tasks] at hmem
    exact ⟨hsound task hmem, hunpaged task hmem, hsorts task hmem⟩
  have hkeys : ∀ branch ∈ catalog.forest request, branch.root.path.keys = [branch.key] := by
    intro branch hmem
    have hroot := hplain branch.root (Branch.root_mem_tasksOf hmem)
    exact branch.keys_root (hroot.sound.keys hroot.unpaged)
  obtain ⟨visits, hserves, hrun⟩ := run_serves herrors
    (fun task hmem => (hplain task hmem).sound.inMemory hmemory) store
  have hempty : Record.Alike [] [] := ⟨List.nodup_nil, List.nodup_nil, fun _ => .none⟩
  obtain ⟨record, hrecord, halike⟩ :=
    Store.alike_answers (hserves.same_top hstore hfits hplain) hkeys hempty
  have hnodup : (Keyed.keys ((catalog.forest request).map fun branch =>
      (branch.key, store.answer Task.skips (fun _ => true) branch))).Nodup := by
    rw [Keyed.keys, List.map_map]
    exact catalog.nodup_keys_forest hrequest hkeys
  have hsame := halike.same
  rw [← Keyed.ofWrites, Keyed.ofWrites_eq_self hnodup] at hsame
  exact ⟨.obj record, by rw [hrun, hrecord], hsame⟩

end Engine

namespace Library

/-- A list of authors, from the last name to the first, with their books. -/
def shelves : Record := [("authors", .obj [("@sort", .str "-name"), ("books", .bool true)])]

/-- The same list, in the order of the table. -/
def unsorted : Record := [("authors", .obj [("books", .bool true)])]

/-- Two authors and a book of one of them; the other has no number. -/
def stocked : Store :=
  ⟨[("author", [[("id", .ofNat 1), ("name", .str "Ann")], [("name", .str "Bob")]]),
    ("book", [[("id", .ofNat 7), ("author_id", .ofNat 1)]])]⟩

/-- A row of a store of the library is one of an author or of a book. -/
theorem mem_of_mem_rows {authors books : List Record} {model : String} {row : Record}
    (h : row ∈ Store.rows ⟨[("author", authors), ("book", books)]⟩ model) :
    row ∈ authors ++ books := by
  unfold Store.rows at h
  cases hfound : Keyed.get? [("author", authors), ("book", books)] model with
  | none =>
    rw [hfound] at h
    cases h
  | some rows =>
    rw [hfound] at h
    have htable := Keyed.mem_of_get? hfound
    simp only [List.mem_cons, Prod.mk.injEq, List.not_mem_nil, or_false] at htable
    rcases htable with ⟨-, rfl⟩ | ⟨-, rfl⟩
    · exact List.mem_append_left _ h
    · exact List.mem_append_right _ h

/-- Tables are plain if authors have plain numbers, and books plain ones for their authors. -/
theorem plain {authors books : List Record}
    (hdistinct : ∀ row ∈ authors ++ books, (Json.obj row).Distinct)
    (hauthors : ∀ row ∈ authors, row.PlainAt "id") (hbooks : ∀ row ∈ books, row.PlainAt "author_id") :
    Store.Plain catalog ⟨[("author", authors), ("book", books)]⟩ := by
  refine ⟨fun _ _ hmem => hdistinct _ (mem_of_mem_rows hmem), ?_⟩
  intro child hchild parent hparent link hlink
  simp only [models_catalog, List.mem_cons, List.not_mem_nil, or_false] at hchild hparent
  rcases hchild with rfl | rfl <;> rcases hparent with rfl | rfl
  · cases hlink
  · obtain rfl := Option.some.inj hlink
    exact ⟨hauthors, hbooks⟩
  · obtain rfl := Option.some.inj hlink
    exact ⟨hbooks, hauthors⟩
  · cases hlink

theorem stocked_plain : Store.Plain catalog stocked := by
  have hdistinct : ∀ n : Nat, (Json.ofNat n).Distinct := fun _ => trivial
  refine plain ?_ ?_ ?_
  · simp [Json.Distinct, Json.DistinctFields, Keyed.keys, hdistinct]
  · intro row hmem value hvalue
    simp only [List.mem_cons, List.not_mem_nil, or_false] at hmem
    rcases hmem with rfl | rfl
    · obtain rfl := Option.some.inj hvalue
      exact .int 1
    · cases hvalue
  · intro row hmem value hvalue
    obtain rfl := List.mem_singleton.1 hmem
    obtain rfl := Option.some.inj hvalue
    exact .int 1

/-- Names are texts and all other columns have numbers, so it can be sorted by each of them. -/
theorem stocked_sortsPlainly (task : Task) : task.SortsPlainly (stocked.rows task.model) := by
  intro keys _ key _
  refine ⟨if key.column = "name" then .text else .integer, fun row hrow => ?_⟩
  have hmem := mem_of_mem_rows hrow
  simp only [List.cons_append, List.nil_append, List.mem_cons, List.not_mem_nil, or_false] at hmem
  cases hvalue : Keyed.get? row key.column with
  | none => exact .null _
  | some value =>
    have hentry := Keyed.mem_of_get? hvalue
    rcases hmem with rfl | rfl | rfl <;>
      simp only [List.mem_cons, Prod.mk.injEq, List.not_mem_nil, or_false] at hentry
    · rcases hentry with ⟨hcolumn, rfl⟩ | ⟨hcolumn, rfl⟩ <;> rw [hcolumn]
      · exact .int 1
      · exact .str "Ann"
    · obtain ⟨hcolumn, rfl⟩ := hentry
      rw [hcolumn]
      exact .str "Bob"
    · rcases hentry with ⟨hcolumn, rfl⟩ | ⟨hcolumn, rfl⟩ <;> rw [hcolumn]
      · exact .int 7
      · exact .int 1

theorem inMemory : catalog.InMemory := by
  intro model hmem
  simp only [models_catalog, List.mem_cons, List.not_mem_nil, or_false] at hmem
  rcases hmem with rfl | rfl <;> exact ⟨rfl, rfl⟩

theorem unpaged_of_pages {tasks : List Task} {pages : List (Option Page)}
    (hpages : tasks.map Task.page = pages) (h : ∀ page ∈ pages, page = none) :
    ∀ task ∈ tasks, task.Unpaged := by
  intro task hmem page hpage
  rw [h task.page (hpages ▸ List.mem_map_of_mem hmem)] at hpage
  cases hpage

end Library

theorem Engine.agrees_library :
    (Json.obj Library.shelves).Distinct ∧
    ∃ data, ((ofCatalog Library.catalog).run .query Library.shelves).run Library.stocked =
        (⟨data, []⟩, Library.stocked) ∧
      data.same (Library.stocked.answerAll Task.skips (Library.catalog.forest Library.shelves)) =
        true := by
  have hdistinct : (Json.obj Library.shelves).Distinct := by
    simp [Library.shelves, Json.Distinct, Json.DistinctFields, Keyed.keys]
  have hpages : (Library.catalog.plan Library.shelves).tasks.map Task.page = [none, none] := rfl
  exact ⟨hdistinct, agrees Library.accepted Library.inMemory Library.stocked_plain hdistinct rfl
    (Library.unpaged_of_pages hpages (by simp)) fun task _ => Library.stocked_sortsPlainly task⟩

/-- Rows that lack the column to join by are passed over, so it is not so that every row gets an
answer to every node nested in its task. -/
theorem Engine.not_agrees_unskipped :
    ¬ ∀ (catalog : Catalog) (store : Store) (request : Record), catalog.Accepted →
      catalog.InMemory → store.Plain catalog → (Json.obj request).Distinct →
      (catalog.plan request).errors = [] → (∀ task ∈ (catalog.plan request).tasks, task.Unpaged) →
      (∀ task ∈ (catalog.plan request).tasks, task.SortsPlainly (store.rows task.model)) →
      ∃ data, ((ofCatalog catalog).run .query request).run store = (⟨data, []⟩, store) ∧
        data.same (store.answerAll (fun _ _ _ => false) (catalog.forest request)) = true := by
  intro hall
  have hdistinct : (Json.obj Library.unsorted).Distinct := by
    simp [Library.unsorted, Json.Distinct, Json.DistinctFields, Keyed.keys]
  have hpages : (Library.catalog.plan Library.unsorted).tasks.map Task.page = [none, none] := rfl
  have hunpaged : ∀ task ∈ (Library.catalog.plan Library.unsorted).tasks, task.Unpaged :=
    Library.unpaged_of_pages hpages (by simp)
  obtain ⟨data, hrun, hsame⟩ := hall Library.catalog Library.stocked Library.unsorted
    Library.accepted Library.inMemory Library.stocked_plain hdistinct rfl hunpaged
    fun task _ => Library.stocked_sortsPlainly task
  have hdata : (((ofCatalog Library.catalog).run .query Library.unsorted).run
      Library.stocked).1.data.same (Library.stocked.answerAll (fun _ _ _ => false)
        (Library.catalog.forest Library.unsorted)) = false := by decide +kernel
  rw [hrun, hsame] at hdata
  cases hdata

end NestedQuery
