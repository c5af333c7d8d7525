import NestedQuery.Proofs.Json.Paths
import NestedQuery.Proofs.Resolve.Replay
/-!
# What a record holds in the end

Read record by record, the final outcome of a host is what was fetched,
in its final shape, with one write for each visit nested in it. Siblings
write under different keys, so each finds the record as if it were
alone: the value of a visit stands at its path in every record that it
joins to, unless the record itself blocks the way, and the others have
there what they had (`Engine.stitches`).

A record blocks the way only to a task on a page, whose path has two
segments: what was fetched has under the first one something that is no
object. Such a record is left as it is, as a blocked write always is.
-/

namespace NestedQuery

namespace Visit

/-! ## Record by record -/

/-- A record of a host after some nested visits, the later ones first. -/
def stitchAll (host : Host) (visits : List Visit) (position : Nat) (record : Record) : Record :=
  visits.foldr (fun visit record => visit.stitchAt host visit.final position record) record

theorem finalBelow_eq (host : Host) (visits : List Visit) (outcome : Outcome) :
    finalBelow host visits outcome = outcome.mapAt (stitchAll host visits) := by
  induction visits with
  | nil =>
    rw [finalBelow, Outcome.mapAt_self]
    exact fun _ _ => rfl
  | cons visit rest ih =>
    rw [finalBelow, ih, stitch, Outcome.mapAt_mapAt]
    rfl

/-- What is left of a visit in the end, told record by record. -/
theorem final_kept (stop : Stop) (fetched : Outcome) (nested : List Visit) :
    final (.kept stop fetched nested) = fetched.mapAt fun position row =>
      stitchAll (stop.host fetched) nested position (stop.task.finish row) := by
  rw [final, finalBelow_eq, Outcome.mapRecords_eq, Outcome.mapAt_mapAt]

/-- The records of a visit in the end, each from the one that was fetched in its place. -/
theorem record?_final (stop : Stop) (fetched : Outcome) (nested : List Visit) (position : Nat) :
    (final (.kept stop fetched nested)).record? position =
      (fetched.record? position).map fun row =>
        stitchAll (stop.host fetched) nested position (stop.task.finish row) := by
  rw [final_kept, Outcome.record?_mapAt]

/-- The key that a visit writes under: the first segment of its task. -/
def segment? (visit : Visit) : Option String := visit.stop.task.path.keys.head?

variable {host : Host} {visit : Visit} {position : Nat} {key : String}

/-- A visit changes nothing but what stands under its key. -/
theorem get?_stitchAt_ne (hkey : visit.segment? ≠ some key) (final : Outcome) (record : Record) :
    (visit.stitchAt host final position record).get? key = record.get? key := by
  unfold stitchAt
  split
  · rfl
  · split
    · exact Json.get?_writeInto_ne hkey _ _
    · rfl

/-- And there it sees nothing else. -/
theorem get?_stitchAt_congr (hkey : visit.segment? = some key) (final : Outcome)
    {record record' : Record} (h : record.get? key = record'.get? key) :
    (visit.stitchAt host final position record).get? key =
      (visit.stitchAt host final position record').get? key := by
  unfold stitchAt
  split
  · exact h
  · split
    · exact Json.get?_writeInto_congr hkey h _
    · exact h

theorem get?_stitchAll_ne {visits : List Visit} (hkey : ∀ visit ∈ visits, visit.segment? ≠ some key)
    (record : Record) : (stitchAll host visits position record).get? key = record.get? key := by
  induction visits with
  | nil => rfl
  | cons visit rest ih =>
    show (visit.stitchAt host visit.final position (stitchAll host rest position record)).get? key = _
    rw [get?_stitchAt_ne (hkey visit (List.mem_cons_self ..)),
      ih fun other hmem => hkey other (List.mem_cons_of_mem _ hmem)]

/-- **Siblings do not get in each other's way**: under the key of a visit a record holds what the
visit alone would have made of it. -/
theorem get?_stitchAll {visits : List Visit} (hnodup : (visits.map segment?).Nodup)
    (hmem : visit ∈ visits) (hkey : visit.segment? = some key) (record : Record) :
    (stitchAll host visits position record).get? key =
      (visit.stitchAt host visit.final position record).get? key := by
  induction visits with
  | nil => cases hmem
  | cons first rest ih =>
    obtain ⟨hfirst, hrest⟩ := List.nodup_cons.1 hnodup
    show (first.stitchAt host first.final position (stitchAll host rest position record)).get? key = _
    rcases List.mem_cons.1 hmem with rfl | hmem
    · refine get?_stitchAt_congr hkey _ (get?_stitchAll_ne (fun other hother heq => hfirst ?_) record)
      rw [hkey, ← heq]
      exact List.mem_map_of_mem hother
    · rw [get?_stitchAt_ne (fun heq => hfirst ?_), ih hrest hmem]
      rw [heq, ← hkey]
      exact List.mem_map_of_mem hmem

end Visit

/-! ## Visits that are nested in one another -/

/-- A host is the task of a visit that something was fetched for. -/
theorem Visit.Nests.exists_kept {visits : List Visit} {host : Host} {visit : Visit}
    (h : Nests visits host visit) :
    ∃ stop fetched nested, host = stop.host fetched ∧
      Occurs visits (.kept stop fetched nested) ∧ visit ∈ nested := by
  induction h with
  | here hmem => exact ⟨_, _, _, rfl, occurs_kept.2 (Or.inl rfl), hmem⟩
  | inside _ ih =>
    obtain ⟨stop, fetched, nested, hhost, hoccurs, hmem⟩ := ih
    exact ⟨stop, fetched, nested, hhost, occurs_kept.2 (Or.inr (Or.inl hoccurs)), hmem⟩
  | @behind first _ _ _ _ ih =>
    obtain ⟨stop, fetched, nested, hhost, hoccurs, hmem⟩ := ih
    refine ⟨stop, fetched, nested, hhost, ?_, hmem⟩
    cases first with
    | missed _ _ => exact occurs_missed.2 (Or.inr hoccurs)
    | kept _ _ _ => exact occurs_kept.2 (Or.inr (Or.inr hoccurs))

theorem Branch.Apart.nodup {branches : List Branch} (h : Apart branches) :
    (branches.map segment?).Nodup := by
  induction h with
  | nil => exact List.nodup_nil
  | node hsegment _ _ _ ih =>
    refine List.nodup_cons.2 ⟨fun hmem => ?_, ih⟩
    obtain ⟨branch, hbranch, heq⟩ := List.mem_map.1 hmem
    exact hsegment branch hbranch heq

namespace Engine.Follows

variable {σ : Type} {engine : Engine σ} {operation : Operation} {input : Record}
  {branches : List Branch} {place : Nat} {progress progress' : Progress} {s s' : σ}
  {visits : List Visit}

/-- There is one visit for each branch. -/
theorem segments
    (h : engine.Follows operation input branches place progress s visits progress' s') :
    visits.map Visit.segment? = branches.map Branch.segment? := by
  induction h with
  | nil => rfl
  | missed _ _ ih => rw [List.map_cons, List.map_cons, ih]; rfl
  | kept _ _ _ _ ih => rw [List.map_cons, List.map_cons, ih]; rfl

theorem exists_branch
    (h : engine.Follows operation input branches place progress s visits progress' s') {visit : Visit}
    (hmem : visit ∈ visits) : ∃ branch ∈ branches, branch.segment? = visit.segment? :=
  List.mem_map.1 (h.segments ▸ List.mem_map_of_mem hmem)

/-- Visits nested in one differ in their keys, as their tasks do. -/
theorem nodup_segments
    (h : engine.Follows operation input branches place progress s visits progress' s')
    (hapart : Branch.Apart branches) {stop : Stop} {fetched : Outcome} {nested : List Visit}
    (hoccurs : Visit.Occurs visits (.kept stop fetched nested)) :
    (nested.map Visit.segment?).Nodup := by
  induction h with
  | nil => exact absurd hoccurs Visit.occurs_nil
  | missed _ _ ih =>
    cases hapart with
    | node _ _ hrest =>
      rcases Visit.occurs_missed.1 hoccurs with heq | hoccurs
      · cases heq
      · exact ih hrest hoccurs
  | kept _ hinner _ ihnested ih =>
    cases hapart with
    | node _ hnested hrest =>
      rcases Visit.occurs_kept.1 hoccurs with heq | hoccurs | hoccurs
      · cases heq
        rw [hinner.segments]
        exact hnested.nodup
      · exact ihnested hnested hoccurs
      · exact ih hrest hoccurs

end Engine.Follows

/-! ## The law of stitching -/

/-- A record holds under the first segment of a path what it held before. -/
def Record.Kept (before after : Record) (path : List String) : Prop :=
  ∀ key ∈ path.head?, after.get? key = before.get? key

/-- A record took a value in at a path: the value is found there, or the record blocked the way and
kept what it had. -/
structure Record.Took (before after : Record) (path : List String) (value : Json) : Prop where
  found : Json.Clear path before → (Json.obj after).at? path = some value
  blocked : ¬ Json.Clear path before → before.Kept after path

/-- What a visit left in the records of its host, given what the slots settled to. A record is
compared with what it was fetched as, in the final shape of its task. -/
structure Visit.Stitched (slots : Slots) (host : Host) (visit : Visit) (link : Link) : Prop where
  /-- There are as many records as were fetched. -/
  records : ∀ position, ((slots.read host.place).record? position).isSome =
    (host.fetched.record? position).isSome
  /-- Under a batch a record that has the column to join to takes in what joins to its value. -/
  batched : visit.stop.task.batch.underBatch = true → ∀ position row record key,
    host.fetched.record? position = some row →
    (slots.read host.place).record? position = some record → row.get? link.referencedKey = some key →
    (host.task.finish row).Took record visit.stop.task.path.keys
      (visit.valueFor link (slots.read visit.stop.place) key)
  /-- A record without the column takes in nothing. -/
  skipped : visit.stop.task.batch.underBatch = true → ∀ position row record,
    host.fetched.record? position = some row →
    (slots.read host.place).record? position = some record → row.get? link.referencedKey = none →
    (host.task.finish row).Kept record visit.stop.task.path.keys
  /-- Where there is no batch, the first record takes in all there is. -/
  single : visit.stop.task.batch.underBatch = false → ∀ row record,
    host.fetched.record? 0 = some row → (slots.read host.place).record? 0 = some record →
    (host.task.finish row).Took record visit.stop.task.path.keys
      (visit.valueFor link (slots.read visit.stop.place) .null)

namespace Visit

variable {host : Host} {visit : Visit} {link : Link} {position : Nat} {before after : Record}

/-- What a visit with a key does to a record, seen under that key. -/
theorem took_of_stitchAt {final : Outcome} {key : Json} (hlink : visit.stop.task.link = some link)
    (hkeys : visit.stop.task.path.keys ≠ [])
    (htarget : visit.stop.task.targetKey? link host position = some key)
    (hafter : ∀ name ∈ visit.segment?, after.get? name =
      Keyed.get? (visit.stitchAt host final position before) name) :
    before.Took after visit.stop.task.path.keys (visit.valueFor link final key) := by
  have hstitch : visit.stitchAt host final position before =
      Json.writeInto before visit.stop.task.path.keys (visit.valueFor link final key) := by
    simp only [stitchAt, hlink, htarget]
  unfold segment? at hafter
  rw [hstitch] at hafter
  generalize visit.stop.task.path.keys = path at hkeys hafter ⊢
  cases path with
  | nil => exact absurd rfl hkeys
  | cons name rest =>
    have hname := hafter name rfl
    constructor
    · intro hclear
      rw [Json.at?_congr rest hname]
      exact Json.at?_writeInto hkeys hclear
    · intro hblocked other hother
      obtain rfl := Option.some.inj hother
      rw [hname, Json.writeInto_of_not_clear hblocked]

end Visit

namespace Engine

variable {σ : Type}

/-- What a run of a request does, and that in it each visit was stitched into its host. -/
def Stitches (engine : Engine σ) (operation : Operation) (request : Record) (s : σ) : Prop :=
  ∃ visits final s',
    engine.Follows operation request (engine.catalog.forest request) 0
      (.start (engine.catalog.plan request)) s visits final s' ∧
    (engine.run operation request).run s =
      ({ data := collect (engine.catalog.plan request).tasks final.settled,
         errors := final.errors }, s') ∧
    ∀ host visit, Visit.Nests visits host visit →
      ∃ link, visit.stop.task.link = some link ∧ visit.Stitched final.settled host link

/-- **The law of stitching.** Whatever parsers and executors return: in the end each nested task has
left in the records of its parent what joins to them, and the records are complete when they are
copied. -/
theorem stitches (engine : Engine σ) (operation : Operation) {request : Record}
    (hrequest : (Json.obj request).Distinct) (s : σ) : engine.Stitches operation request s := by
  have hfits := engine.catalog.fits_forest request
  obtain ⟨visits, final, s', hfollows, hrun⟩ := run_settled engine operation request s
  refine ⟨visits, final, s', hfollows, hrun, fun host visit hnests => ?_⟩
  obtain ⟨-, hbelow⟩ := hfollows.holds_of_nests hfits hnests
  obtain ⟨link, hlink, -⟩ := hbelow.link
  obtain ⟨stop, fetched, nested, rfl, hoccurs, hmem⟩ := hnests.exists_kept
  have hnodup := hfollows.nodup_segments (engine.catalog.apart_forest hrequest) hoccurs
  have hhost : final.settled.read stop.place = Visit.final (.kept stop fetched nested) :=
    hfollows.read_settled hoccurs
  have hvisit := hfollows.read_settled (Or.inr ⟨_, hnests⟩)
  -- a record in the end, seen under the key of the visit
  have hrecord : ∀ position row record, fetched.record? position = some row →
      (final.settled.read stop.place).record? position = some record →
      ∀ name ∈ visit.segment?, Keyed.get? record name = Keyed.get?
        (visit.stitchAt (stop.host fetched) (final.settled.read visit.stop.place) position
          (stop.task.finish row)) name := by
    intro position row record hrow hrecord name hname
    rw [hhost, Visit.record?_final, hrow, Option.map_some] at hrecord
    obtain rfl := Option.some.inj hrecord
    rw [Visit.get?_stitchAll hnodup hmem hname, hvisit]
  refine ⟨link, hlink, fun position => ?_, fun hunder position row record key hrow hrec hkey => ?_,
    fun hunder position row record hrow hrec hnone name hname => ?_,
    fun hunder row record hrow hrec => ?_⟩
  · show ((final.settled.read stop.place).record? position).isSome = _
    rw [hhost, Visit.record?_final, Option.isSome_map]
    rfl
  · refine Visit.took_of_stitchAt hlink hbelow.keys ?_ (hrecord position row record hrow hrec)
    rw [Task.targetKey?, if_pos hunder, hrow]
    exact hkey
  · rw [hrecord position row record hrow hrec name hname, Visit.stitchAt, hlink]
    have htarget : visit.stop.task.targetKey? link (stop.host fetched) position = none := by
      rw [Task.targetKey?, if_pos hunder, hrow]
      exact hnone
    simp only [htarget]
    rfl
  · refine Visit.took_of_stitchAt hlink hbelow.keys ?_ (hrecord 0 row record hrow hrec)
    rw [Task.targetKey?, if_neg (by simp [hunder]), if_pos rfl]

end Engine

namespace Library

/-- A list of authors with a page of their books. -/
def paged : Record := [("authors", .obj [("books", .obj [("@pagination", .bool true)])])]

/-- An author and a book, where the author counts the books already. -/
def counted : Store :=
  ⟨[("author", [[("id", .ofNat 1), ("books", .ofNat 5)]]),
    ("book", [[("id", .ofNat 7), ("author_id", .ofNat 1)]])]⟩

end Library

theorem Engine.stitches_library : (Json.obj Library.paged).Distinct ∧
    (Engine.ofCatalog Library.catalog).Stitches .query Library.paged Library.counted := by
  have hdistinct : (Json.obj Library.paged).Distinct := by
    simp [Library.paged, Keyed.keys, Json.Distinct, Json.DistinctFields]
  exact ⟨hdistinct,
    stitches (Engine.ofCatalog Library.catalog) .query hdistinct Library.counted⟩

/-- It takes a clear way: the count of the author's books is no object, so no page of books stands
below it. -/
theorem Engine.not_stitched_counted :
    ¬ ∀ visits final s',
      (Engine.ofCatalog Library.catalog).Follows .query Library.paged
        (Library.catalog.forest Library.paged) 0 (.start (Library.catalog.plan Library.paged))
        Library.counted visits final s' →
      ∀ host visit link, Visit.Nests visits host visit → visit.stop.task.link = some link →
        visit.stop.task.batch.underBatch = true → ∀ position row record key,
          host.fetched.record? position = some row →
          (final.settled.read host.place).record? position = some record →
          row.get? link.referencedKey = some key →
          (Json.obj record).at? visit.stop.task.path.keys =
            some (visit.valueFor link (final.settled.read visit.stop.place) key) := by
  intro hall
  have hfollows := hall _ _ _ (.kept rfl (.kept rfl .nil .nil) .nil)
  have hfound := hfollows _ _ _ (.here (List.mem_singleton_self _)) rfl rfl 0 _ _ _ rfl rfl rfl
  cases hfound

end NestedQuery
