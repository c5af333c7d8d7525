import NestedQuery.Proofs.Resolve.Agreement
import NestedQuery.Proofs.Resolve.Discipline
/-!
# Temporary fields stay inside

A field may be fetched for joins only. It is indexed with the rest, so
that nested tasks find it, and is dropped before the record is shown;
and what is written into the record later, aliases and the results of
nested nodes, does not bring its name back (`Engine.hides`). An alias is
never a column and a nested node never stands under one, whereas a
temporary field is always for a column.

A record is copied: into a record of the parent's task, with that one
further up, and in the end into the data tree. `Visit.Copied` follows a
record there by what is found at the paths, and a copy is the record as
it is in the end (`Visit.Copied.record?_final`).
-/

namespace NestedQuery

/-! ## One record -/

/-- The final shape of a record has no temporary field, whatever the record was. -/
theorem Task.get?_finish_temporary {task : Task}
    (hlisting : ∀ fields, task.fields = some fields → Listing fields) (record : Record)
    {key : String} (hkey : key ∈ task.temporarySources) : (task.finish record).get? key = none := by
  cases hfields : task.fields with
  | none => simp [temporarySources, hfields] at hkey
  | some fields =>
    have hlisted := hlisting fields hfields
    obtain ⟨field, hmem, hdropped, hsource⟩ := (mem_temporarySources hfields).1 hkey
    have haliases : (task.aliases.flatMap fun pair => [pair.1, pair.2]).Nodup := by
      rw [aliases, hfields]
      exact hlisted.nodup_aliases
    -- no alias is called so, and nothing of that name is left to be renamed
    have hnone : task.aliases.find? (fun pair => pair.2 = key) = none := by
      rw [List.find?_eq_none]
      intro pair hpair
      obtain ⟨other, hother, -, halias⟩ := (mem_aliases hlisted hfields).1 hpair
      have hapart := hlisted.apart field hmem hdropped other hother
      simp only [decide_eq_true_eq]
      rintro rfl
      exact hapart (hsource ▸ Field.alias_mem_names halias)
    rw [finish, Record.get?_foldl_rename haliases, hnone]
    simp only [Record.get?_foldl_erase, if_pos hkey, ite_self]

namespace Visit

/-- A record in the end has no temporary field of its task, if no visit is nested under its key. -/
theorem get?_final_temporary {stop : Stop} {fetched : Outcome} {nested : List Visit}
    (hlisting : ∀ fields, stop.task.fields = some fields → Listing fields)
    (hnested : ∀ visit ∈ nested, ∀ key ∈ stop.task.temporarySources, visit.segment? ≠ some key)
    {position : Nat} {record : Record}
    (hrecord : (final (.kept stop fetched nested)).record? position = some record) {key : String}
    (hkey : key ∈ stop.task.temporarySources) : record.get? key = none := by
  rw [record?_final] at hrecord
  obtain ⟨row, -, rfl⟩ := Option.map_eq_some_iff.1 hrecord
  rw [get?_stitchAll_ne fun visit hvisit => hnested visit hvisit key hkey]
  exact Task.get?_finish_temporary hlisting row hkey

end Visit

/-! ## Along the walk -/

namespace Engine

variable {σ : Type} {engine : Engine σ}

/-- A task that failed has no outcome. -/
theorem unfailed_of_attempt {context : Context} {task : Task} {s s' : σ} {fetched : Outcome}
    (h : (engine.attempt context task).run s = (.ok fetched, s')) : task.isFailed = false := by
  obtain ⟨turn, result, left, htakes⟩ := engine.exists_takes context task s
  obtain ⟨rfl, rfl⟩ := Prod.mk.inj (h.symm.trans htakes.attempt_run)
  obtain ⟨call, hcall, -⟩ := htakes.result_iff.1 rfl
  obtain ⟨⟨parse, -, hparse, -⟩, -, -⟩ := htakes.executor_iff.1 ⟨call, hcall⟩
  exact (htakes.parser_iff.1 ⟨parse, hparse⟩).1

namespace Follows

variable {operation : Operation} {input : Record} {branches : List Branch} {place : Nat}
  {progress progress' : Progress} {s s' : σ} {visits : List Visit}

/-- A visit that something was fetched on is one to a task that did not fail, and nothing is nested
in it under the key of a temporary field. -/
theorem tidy_of_kept
    (h : engine.Follows operation input branches place progress s visits progress' s')
    (htidy : Branch.Tidy branches) {stop : Stop} {fetched : Outcome} {nested : List Visit}
    (hoccurs : Visit.Occurs visits (.kept stop fetched nested)) :
    stop.task.isFailed = false ∧
      ∀ visit ∈ nested, ∀ key ∈ stop.task.temporarySources, visit.segment? ≠ some key := by
  induction h with
  | nil => exact absurd hoccurs Visit.occurs_nil
  | missed _ _ ih =>
    cases htidy with
    | node _ _ hrest =>
      rcases Visit.occurs_missed.1 hoccurs with heq | hoccurs
      · cases heq
      · exact ih hrest hoccurs
  | kept hattempt hinner _ ihnested ih =>
    cases htidy with
    | node hkeys hnested hrest =>
      rcases Visit.occurs_kept.1 hoccurs with heq | hoccurs | hoccurs
      · cases heq
        refine ⟨unfailed_of_attempt hattempt, fun visit hvisit key hkey hsegment => ?_⟩
        obtain ⟨branch, hbranch, heq⟩ := hinner.exists_branch hvisit
        exact hkeys branch hbranch key hkey (heq.trans hsegment)
      · exact ihnested hnested hoccurs
      · exact ih hrest hoccurs

/-- Each slot is that of a visit, or nothing is in it. -/
theorem visit_of_slot
    (h : engine.Follows operation input branches place progress s visits progress' s')
    {catalog : Catalog} {parent : Option Task} (hfits : Branch.Fits catalog parent branches) {i : Nat}
    {outcome : Outcome} (hslot : (Visit.slotsOf Visit.final visits)[i]? = some outcome) :
    outcome = .absent ∨ ∃ visit, Visit.Occurs visits visit ∧ visit.stop.place = place + i ∧
      visit.final = outcome := by
  induction h generalizing parent i with
  | nil => simp [Visit.slotsOf] at hslot
  | @missed task nested rest place _ _ _ _ _ _ visits _ _ ih =>
    cases hfits with
    | node _ hcount _ hrest =>
      rw [Visit.slotsOf, List.getElem?_append] at hslot
      split at hslot
      · exact Or.inl (List.eq_of_mem_replicate (List.mem_of_getElem? hslot))
      · next hle =>
        rw [List.length_replicate] at hle hslot
        refine (ih hrest hslot).imp_right ?_
        rintro ⟨visit, hoccurs, hplace, hfinal⟩
        have hle : task.childCount + 1 ≤ i := Nat.le_of_not_lt hle
        have hplace : visit.stop.place = place + 1 + (Branch.tasksOf nested).length +
          (i - (task.childCount + 1)) := hplace
        exact ⟨visit, Visit.occurs_missed.2 (Or.inr hoccurs), by omega, hfinal⟩
  | @kept task nested rest place _ _ _ _ _ _ _ fetched inner visits _ hinner _ ihnested ih =>
    cases hfits with
    | node _ hcount hnested hrest =>
      have hlength := hinner.length_slotsOf hnested Visit.final
      cases i with
      | zero =>
        rw [Visit.slotsOf, List.getElem?_cons_zero] at hslot
        exact Or.inr ⟨_, Visit.occurs_kept.2 (Or.inl rfl), rfl, Option.some.inj hslot⟩
      | succ i =>
        rw [Visit.slotsOf, List.getElem?_cons_succ, List.getElem?_append] at hslot
        split at hslot
        · refine (ihnested hnested hslot).imp_right ?_
          rintro ⟨visit, hoccurs, hplace, hfinal⟩
          exact ⟨visit, Visit.occurs_kept.2 (Or.inr (Or.inl hoccurs)), by omega, hfinal⟩
        · next hle =>
          refine (ih hrest hslot).imp_right ?_
          rintro ⟨visit, hoccurs, hplace, hfinal⟩
          exact ⟨visit, Visit.occurs_kept.2 (Or.inr (Or.inr hoccurs)), by omega, hfinal⟩

end Follows

end Engine

/-! ## Copies -/

/-- The records that a value shows: itself, or its items. -/
def Json.shows : Json → List Record
  | .obj fields => [fields]
  | .arr items => items.filterMap Json.record?
  | _ => []

theorem Json.shows_arr (records : List Record) : (Json.arr (records.map .obj)).shows = records := by
  rw [shows, List.filterMap_map]
  exact List.filterMap_some

theorem Json.shows_pick (isGroup : Bool) (records : List Record) :
    (Json.pick isGroup (records.map .obj)).shows = if isGroup then records else records.take 1 := by
  cases isGroup with
  | true => exact shows_arr records
  | false => cases records <;> rfl

theorem Outcome.shows_toJson (outcome : Outcome) : outcome.toJson.shows = outcome.rows := by
  cases outcome with
  | records rows => exact Json.shows_arr rows
  | _ => rfl

namespace Visit

/-- The positions of the records that a visit copies into a record with a key, in order: under a
batch those that carry the key, all of them for a list and the first one otherwise; else all there
are. -/
def picked (visit : Visit) (link : Link) (key : Json) : List Nat :=
  match visit with
  | missed _ _ => []
  | kept stop fetched _ =>
    if stop.task.batch.underBatch then
      if stop.task.batch.isGroup then fetched.joining link.localKey key
      else (fetched.joining link.localKey key).take 1
    else List.range fetched.rows.length

/-- A record stands somewhere as a copy of the record at a position of a visit. -/
inductive Copied (visits : List Visit) (slots : Slots) (data : Json) : Visit → Nat → Record → Prop where
  /-- The record of the visit itself, once all is done. -/
  | own {visit : Visit} {position : Nat} {record : Record} :
      Occurs visits visit → (slots.read visit.stop.place).record? position = some record →
      Copied visits slots data visit position record
  /-- A record in the data tree, at the path of a visit at the top. -/
  | shown {visit : Visit} {value : Json} {position : Nat} {record : Record} :
      visit ∈ visits → data.at? visit.stop.task.path.keys = some value →
      value.shows[position]? = some record → Copied visits slots data visit position record
  /-- A record in a copy of a record of the host, at the path of a nested visit that wrote there. -/
  | stitched {stop : Stop} {fetched : Outcome} {nested : List Visit} {place : Nat}
      {row outer : Record} {visit : Visit} {link : Link} {key value : Json} {i position : Nat}
      {record : Record} :
      Copied visits slots data (.kept stop fetched nested) place outer →
      fetched.record? place = some row → visit ∈ nested → visit.stop.task.link = some link →
      visit.stop.task.targetKey? link (stop.host fetched) place = some key →
      Json.Clear visit.stop.task.path.keys (stop.task.finish row) →
      (Json.obj outer).at? visit.stop.task.path.keys = some value →
      value.shows[i]? = some record → (visit.picked link key)[i]? = some position →
      Copied visits slots data visit position record

/-- What is made of each item of a list stands where the item does, if something is made of all. -/
theorem getElem?_filterMap {α β : Type} {f : α → Option β} {xs : List α}
    (h : ∀ x ∈ xs, (f x).isSome) (i : Nat) : (xs.filterMap f)[i]? = xs[i]?.bind f := by
  induction xs generalizing i with
  | nil => rfl
  | cons x rest ih =>
    obtain ⟨hx, hrest⟩ := List.forall_mem_cons.1 h
    obtain ⟨y, hy⟩ := Option.isSome_iff_exists.1 hx
    rw [List.filterMap_cons_some hy]
    cases i with
    | zero => simp [hy]
    | succ i => exact ih hrest i

/-- **What a visit writes for a key shows its records**, those at the positions that are picked. -/
theorem record?_of_picked {visit : Visit} {link : Link} {key : Json} {i position : Nat}
    {record : Record} (hrecord : (visit.valueFor link visit.final key).shows[i]? = some record)
    (hposition : (visit.picked link key)[i]? = some position) :
    visit.final.record? position = some record := by
  cases visit with
  | missed stop fault => cases hrecord
  | kept stop fetched nested =>
    cases hunder : stop.task.batch.underBatch with
    | false =>
      have hvalue : (Visit.kept stop fetched nested).valueFor link
          (final (.kept stop fetched nested)) key = (final (.kept stop fetched nested)).toJson :=
        if_neg (by simp [hunder])
      have hpicked : (Visit.kept stop fetched nested).picked link key =
          List.range fetched.rows.length := if_neg (by simp [hunder])
      rw [hvalue, Outcome.shows_toJson, ← Outcome.record?_eq] at hrecord
      rw [hpicked] at hposition
      obtain ⟨-, rfl⟩ := List.getElem?_eq_some_iff.1 hposition
      rwa [List.getElem_range]
    | true =>
      have hsome : ∀ position ∈ fetched.joining link.localKey key,
          ((final (.kept stop fetched nested)).record? position).isSome := by
        intro position hmem
        obtain ⟨entry, hentry, rfl⟩ := List.mem_map.1 hmem
        rw [record?_final, Option.isSome_map, Outcome.record?_eq,
          List.mem_zipIdx_iff_getElem?.1 (List.mem_of_mem_filter hentry)]
        rfl
      have hpicked : (Visit.kept stop fetched nested).picked link key =
          if stop.task.batch.isGroup then fetched.joining link.localKey key
          else (fetched.joining link.localKey key).take 1 := if_pos hunder
      rw [valueFor_eq_pick hunder hsome, Json.shows_pick] at hrecord
      rw [hpicked] at hposition
      -- for a single record, only the first position counts
      have hat : ((fetched.joining link.localKey key).filterMap
          (final (.kept stop fetched nested)).record?)[i]? = some record ∧
          (fetched.joining link.localKey key)[i]? = some position := by
        cases hgroup : stop.task.batch.isGroup with
        | true =>
          simp only [hgroup, if_true] at hrecord hposition
          exact ⟨hrecord, hposition⟩
        | false =>
          simp only [hgroup, Bool.false_eq_true, if_false, List.getElem?_take] at hrecord hposition
          split at hrecord
          · next hi =>
            rw [if_pos hi] at hposition
            exact ⟨hrecord, hposition⟩
          · cases hrecord
      rw [getElem?_filterMap hsome, hat.2] at hat
      exact hat.1

/-- What is nested in a visit that is somewhere among some visits is nested among them. -/
theorem nests_of_occurs {visits : List Visit} {stop : Stop} {fetched : Outcome}
    {nested : List Visit} (h : Occurs visits (.kept stop fetched nested)) {visit : Visit}
    (hmem : visit ∈ nested) : Nests visits (stop.host fetched) visit := by
  induction visits using forest_induction with
  | nil => exact absurd h occurs_nil
  | missed _ _ _ ih =>
    rcases occurs_missed.1 h with heq | h
    · cases heq
    · exact .behind (ih h)
  | kept _ _ _ _ ihnested ih =>
    rcases occurs_kept.1 h with heq | h | h
    · cases heq
      exact .here hmem
    · exact .inside (ihnested h)
    · exact .behind (ih h)

theorem Copied.occurs {visits : List Visit} {slots : Slots} {data : Json} {visit : Visit}
    {position : Nat} {record : Record} (h : Copied visits slots data visit position record) :
    Occurs visits visit := by
  induction h with
  | own hoccurs => exact hoccurs
  | shown hmem => exact Or.inl hmem
  | stitched _ _ hmem _ _ _ _ _ _ ih => exact Or.inr ⟨_, nests_of_occurs ih hmem⟩

end Visit

namespace Engine.Follows

variable {σ : Type} {engine : Engine σ} {operation : Operation} {request : Record} {s s' : σ}
  {visits : List Visit} {final : Progress}

/-- At the path of a visit at the top stands what is left of it in the end. -/
theorem at?_collected (h : engine.Follows operation request (engine.catalog.forest request) 0
      (.start (engine.catalog.plan request)) s visits final s')
    (hrequest : (Json.obj request).Distinct) {visit : Visit} (hmem : visit ∈ visits) :
    (visits.foldl Visit.collectInto (.obj [])).at? visit.stop.task.path.keys =
      some visit.final.toJson := by
  have hnodup : (visits.map Visit.segment?).Nodup :=
    h.segments ▸ (engine.catalog.apart_forest hrequest).nodup
  obtain ⟨branch, hbranch, hroot⟩ := h.root_of_mem hmem
  have hkeys : visit.stop.task.path.keys ≠ [] :=
    hroot ▸ (Branch.root_below (engine.catalog.fits_forest request) hbranch).keys
  obtain ⟨key, rest, hpath⟩ := List.exists_cons_of_ne_nil hkeys
  have hkey : visit.segment? = some key := by rw [Visit.segment?, hpath]; rfl
  have hwritten : (Visit.collectInto (.obj []) visit).at? visit.stop.task.path.keys =
      some visit.final.toJson :=
    Json.at?_writeInto hkeys (by rw [hpath]; cases rest <;> simp [Json.Clear])
  rw [hpath, Json.at?] at hwritten ⊢
  rw [Visit.get?_collected hnodup hmem hkey]
  exact hwritten

/-- **A copy of a record is the record** as it is in the end. -/
theorem record?_of_copied (h : engine.Follows operation request (engine.catalog.forest request) 0
      (.start (engine.catalog.plan request)) s visits final s')
    (hrequest : (Json.obj request).Distinct) {visit : Visit} {position : Nat} {record : Record}
    (hcopied : Visit.Copied visits final.settled (visits.foldl Visit.collectInto (.obj [])) visit
      position record) :
    visit.final.record? position = some record := by
  induction hcopied with
  | own hoccurs hrecord => rwa [h.read_settled hoccurs] at hrecord
  | @shown visit value position record hmem hvalue hrecord =>
    rw [h.at?_collected hrequest hmem] at hvalue
    obtain rfl := Option.some.inj hvalue
    rwa [Outcome.shows_toJson, ← Outcome.record?_eq] at hrecord
  | @stitched stop fetched nested place row outer visit link key value i position record hhost hrow
      hmem hlink htarget hclear hvalue hrecord hposition ih =>
    have hoccurs := hhost.occurs
    have hnests := Visit.nests_of_occurs hoccurs hmem
    obtain ⟨-, hbelow⟩ := h.holds_of_nests (engine.catalog.fits_forest request) hnests
    have hnodup := h.nodup_segments (engine.catalog.apart_forest hrequest) hoccurs
    rw [Visit.record?_final, hrow, Option.map_some] at ih
    obtain rfl := Option.some.inj ih
    have htook := Visit.took_of_stitchAt hlink hbelow.keys htarget
      (fun name hname => Visit.get?_stitchAll hnodup hmem hname (stop.task.finish row))
    rw [htook.found hclear] at hvalue
    obtain rfl := Option.some.inj hvalue
    exact Visit.record?_of_picked hrecord hposition

end Engine.Follows

/-! ## The law -/

namespace Engine

variable {σ : Type}

/-- A run whose records have no temporary fields, wherever they stand, though these are indexed. -/
structure HidesIn (engine : Engine σ) (request : Record) (visits : List Visit) (final : Progress)
    (data : Json) : Prop where
  /-- Visits are made to tasks of the plan. -/
  tasks : ∀ visit, Visit.Occurs visits visit →
    (engine.catalog.plan request).tasks[visit.stop.place]? = some visit.stop.task
  /-- No record of a task has, in the end, a temporary field of the task. -/
  records : ∀ i task, (engine.catalog.plan request).tasks[i]? = some task →
    ∀ position record, (final.settled.read i).record? position = some record →
      ∀ key ∈ task.temporarySources, key ∉ Keyed.keys record
  /-- Nor has any copy of one, in a record of an ancestor or in the data tree. -/
  copies : ∀ visit position record, Visit.Copied visits final.settled data visit position record →
    (final.settled.read visit.stop.place).record? position = some record ∧
      ∀ key ∈ visit.stop.task.temporarySources, key ∉ Keyed.keys record
  /-- Nested tasks find the temporary fields of their parent in the index, as they were fetched. -/
  indexed : ∀ host visit, Visit.Nests visits host visit → ∀ key ∈ host.task.temporarySources,
    visit.stop.progress.cache.index? host.task.path.text key =
      some (.ofOutcome host.fetched key)

/-- What a run does, and that it hides the temporary fields. -/
def Hides (engine : Engine σ) (operation : Operation) (request : Record) (s : σ) : Prop :=
  ∃ visits final s',
    engine.Follows operation request (engine.catalog.forest request) 0
      (.start (engine.catalog.plan request)) s visits final s' ∧
    (engine.run operation request).run s =
      ({ data := collect (engine.catalog.plan request).tasks final.settled,
         errors := final.errors }, s') ∧
    engine.HidesIn request visits final (collect (engine.catalog.plan request).tasks final.settled)

namespace Follows

variable {engine : Engine σ} {operation : Operation} {request : Record} {s s' : σ}
  {visits : List Visit} {final : Progress}

/-- What is left of a visit in the end has no temporary field of its task. -/
theorem not_mem_keys_final (h : engine.Follows operation request (engine.catalog.forest request) 0
      (.start (engine.catalog.plan request)) s visits final s')
    (haccepted : engine.catalog.Accepted) (hrequest : (Json.obj request).Distinct) {visit : Visit}
    (hoccurs : Visit.Occurs visits visit) {position : Nat} {record : Record}
    (hrecord : visit.final.record? position = some record) {key : String}
    (hkey : key ∈ visit.stop.task.temporarySources) : key ∉ Keyed.keys record := by
  cases visit with
  | missed stop fault => cases hrecord
  | kept stop fetched nested =>
    obtain ⟨hunfailed, hnested⟩ := h.tidy_of_kept (Catalog.tidy_forest haccepted request) hoccurs
    have hsound := Catalog.sound_of_unfailed haccepted hrequest stop.task
      (List.mem_of_getElem? (h.getElem?_plan hoccurs)) hunfailed
    rw [← Keyed.get?_eq_none_iff]
    exact Visit.get?_final_temporary (fun fields hfields => (hsound.listing fields hfields).1)
      hnested hrecord hkey

end Follows

/-- **Temporary fields stay inside.** Whatever parsers and executors return: no task leaves a record
with one of its temporary fields, in its own place or as a copy in another one, though these fields
are there for nested tasks to join to. -/
theorem hides (engine : Engine σ) (haccepted : engine.catalog.Accepted) (operation : Operation)
    {request : Record} (hrequest : (Json.obj request).Distinct) (s : σ) :
    engine.Hides operation request s := by
  have hfits := engine.catalog.fits_forest request
  obtain ⟨visits, final, s', hfollows, hrun⟩ := run_settled engine operation request s
  refine ⟨visits, final, s', hfollows, hrun, fun visit => hfollows.getElem?_plan,
    fun i task htask position record hrecord key hkey => ?_,
    fun visit position record hcopied => ?_, fun host visit hnests key hkey => ?_⟩
  · rw [Slots.read, hfollows.settled] at hrecord
    cases hslot : (Visit.slotsOf Visit.final visits)[i]? with
    | none =>
      rw [hslot] at hrecord
      cases hrecord
    | some outcome =>
      rw [hslot, Option.getD_some] at hrecord
      rcases hfollows.visit_of_slot hfits hslot with rfl | ⟨visit, hoccurs, hplace, rfl⟩
      · cases hrecord
      · rw [Nat.zero_add] at hplace
        have hvisited := hfollows.getElem?_plan hoccurs
        rw [hplace, htask] at hvisited
        obtain rfl := Option.some.inj hvisited
        exact hfollows.not_mem_keys_final haccepted hrequest hoccurs hrecord hkey
  · rw [hfollows.collect_visits] at hcopied
    have hrecord := hfollows.record?_of_copied hrequest hcopied
    rw [hfollows.read_settled hcopied.occurs]
    exact ⟨hrecord, fun key => hfollows.not_mem_keys_final haccepted hrequest hcopied.occurs hrecord⟩
  · obtain ⟨hholds, -⟩ := hfollows.holds_of_nests hfits hnests
    rw [JoinCache.index?, hholds.2, Option.bind_some]
    exact Task.get?_indices (Or.inr hkey) host.fetched

end Engine

namespace Library

/-- The names of authors and the titles of their books, which need numbers to be joined. -/
def titles : Record :=
  [("authors", .obj [("@field", .str "name"), ("books", .obj [("@field", .str "title")])])]

end Library

theorem Engine.hides_library : (Json.obj Library.titles).Distinct ∧
    (Library.catalog.plan Library.titles).tasks.map Task.temporarySources = [["id"], ["id", "author_id"]] ∧
    (Engine.ofCatalog Library.catalog).Hides .query Library.titles Library.stocked := by
  have hdistinct : (Json.obj Library.titles).Distinct := by
    simp [Library.titles, Json.Distinct, Json.DistinctFields, Keyed.keys]
  exact ⟨hdistinct, by decide +kernel,
    hides (ofCatalog Library.catalog) Library.accepted .query hdistinct Library.stocked⟩

end NestedQuery
