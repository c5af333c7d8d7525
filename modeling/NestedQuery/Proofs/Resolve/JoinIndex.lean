import Mathlib.Data.List.Basic
import NestedQuery.Proofs.Json.Sameness
import NestedQuery.Resolve.JoinIndex
/-!
# A join index is a scan

The index of a column says what a scan of the records would: its entries
are the values of the column with the positions of their records
(`entries_ofOutcome`), and the positions it finds under a key are those
of the records that carry the column with that join key, in order
(`positionsOf_ofOutcome`). Both are read off an index being *sound*,
which every record that is added keeps. That no position stands in a
bucket that a key would not find is kept beside it (`Bucketed`), and so
each position is found under the keys of one join key (`ofRecords_scans`).
-/

namespace NestedQuery

/-- Whether a record carries a column with the join key of a value. -/
def Record.joins (record : Record) (column : String) (key : Json) : Bool :=
  match record.get? column with
  | some value => value.joinKey = key.joinKey
  | none => false

theorem Record.joins_iff {record : Record} {column : String} {key : Json} :
    record.joins column key = true ↔
      ∃ value, record.get? column = some value ∧ value.joinKey = key.joinKey := by
  unfold joins
  cases record.get? column <;> simp

namespace Outcome

/-- The records, in order. -/
def rows : Outcome → List Record
  | record fields => [fields]
  | records rows => rows
  | absent | count _ => []

/-- The positions of the records that carry a column with the join key of a value. -/
def joining (outcome : Outcome) (column : String) (key : Json) : List Nat :=
  (outcome.rows.zipIdx.filter fun entry => entry.1.joins column key).map Prod.snd

/-- The positions are those of the records that join. -/
theorem mem_joining {outcome : Outcome} {column : String} {key : Json} {position : Nat} :
    position ∈ outcome.joining column key ↔
      ∃ record, outcome.rows[position]? = some record ∧ record.joins column key = true := by
  rw [joining, List.mem_map]
  constructor
  · rintro ⟨⟨record, i⟩, hmem, rfl⟩
    obtain ⟨hrecord, hjoins⟩ := List.mem_filter.1 hmem
    exact ⟨record, List.mem_zipIdx_iff_getElem?.1 hrecord, hjoins⟩
  · rintro ⟨record, hrecord, hjoins⟩
    exact ⟨(record, position),
      List.mem_filter.2 ⟨List.mem_zipIdx_iff_getElem?.2 hrecord, hjoins⟩, rfl⟩

theorem record?_eq (outcome : Outcome) (position : Nat) :
    outcome.record? position = outcome.rows[position]? := by
  cases outcome with
  | record fields => cases position <;> rfl
  | records rows => cases position <;> rfl
  | _ => cases position <;> rfl

end Outcome

namespace JoinIndex

/-! ## Entries -/

/-- The values of a column with the positions of their records, the first of which is given. -/
def scan (column : String) (position : Nat) (records : List Record) : List (Json × Nat) :=
  (records.zipIdx position).filterMap fun entry =>
    (entry.1.get? column).map fun value => (value, entry.2)

@[simp] theorem scan_nil (column : String) (position : Nat) : scan column position [] = [] := rfl

theorem scan_cons (column : String) (position : Nat) (record : Record) (rest : List Record) :
    scan column position (record :: rest) =
      ((record.get? column).map fun value => (value, position)).toList ++
        scan column (position + 1) rest := by
  rw [scan, List.zipIdx_cons, List.filterMap_cons]
  cases record.get? column <;> rfl

/-- Positions rise along a scan. -/
theorem scan_pairwise (column : String) (position : Nat) (records : List Record) :
    (scan column position records).Pairwise (fun a b => a.2 < b.2) ∧
      ∀ entry ∈ scan column position records, position ≤ entry.2 := by
  induction records generalizing position with
  | nil => simp
  | cons record rest ih =>
    obtain ⟨hpairwise, hle⟩ := ih (position + 1)
    rw [scan_cons]
    cases record.get? column with
    | none => exact ⟨hpairwise, fun entry hentry => by have := hle entry hentry; omega⟩
    | some value =>
      refine ⟨List.pairwise_cons.2 ⟨hle, hpairwise⟩, fun entry hentry => ?_⟩
      rcases List.mem_cons.1 hentry with rfl | hentry
      · exact Nat.le_refl _
      · have := hle entry hentry
        omega

/-- A scan from the start lists each record that carries the column, under its position. -/
theorem mem_scan {column : String} {records : List Record} {value : Json} {position : Nat} :
    (value, position) ∈ scan column 0 records ↔
      ∃ record, records[position]? = some record ∧ record.get? column = some value := by
  rw [scan, List.mem_filterMap]
  constructor
  · rintro ⟨⟨record, i⟩, hmem, hentry⟩
    obtain ⟨found, hfound, heq⟩ := Option.map_eq_some_iff.1 hentry
    obtain ⟨rfl, rfl⟩ := Prod.mk.inj heq
    exact ⟨record, List.mem_zipIdx_iff_getElem?.1 hmem, hfound⟩
  · rintro ⟨record, hrecord, hvalue⟩
    refine ⟨(record, position), List.mem_zipIdx_iff_getElem?.2 hrecord, ?_⟩
    rw [hvalue, Option.map_some]

/-- A scan has an entry for the record at a position exactly if the record carries the column. -/
theorem find?_scan (column : String) (position i : Nat) (records : List Record) :
    (scan column position records).find? (fun entry => entry.2 = position + i) =
      (records[i]?.bind fun record => record.get? column).map fun value =>
        (value, position + i) := by
  induction records generalizing position i with
  | nil => simp
  | cons record rest ih =>
    have hrest : ∀ j, i = j + 1 → (scan column (position + 1) rest).find?
        (fun entry => entry.2 = position + i) =
          (rest[j]?.bind fun record => record.get? column).map fun value =>
            (value, position + i) := by
      rintro j rfl
      have hj := ih (position + 1) j
      rwa [show position + 1 + j = position + (j + 1) by omega] at hj
    rw [scan_cons, List.find?_append]
    cases i with
    | zero =>
      have hnone : (scan column (position + 1) rest).find?
          (fun entry => entry.2 = position + 0) = none := by
        rw [List.find?_eq_none]
        intro entry hentry
        have := (scan_pairwise column (position + 1) rest).2 entry hentry
        simp only [decide_eq_true_eq]
        omega
      rw [hnone, List.getElem?_cons_zero, Option.bind_some]
      cases record.get? column <;> simp
    | succ j =>
      rw [hrest j rfl, List.getElem?_cons_succ]
      cases record.get? column <;> simp

/-! ## Sound indices -/

/-- The positions found under a key are those of the entries with that join key. -/
def Sound (index : JoinIndex) : Prop :=
  ∀ key : Json, index.positionsOf key =
    (index.entries.filter fun entry => entry.1.joinKey = key.joinKey).map Prod.snd

theorem sound_empty : Sound {} := fun _ => rfl

theorem Sound.push {index : JoinIndex} (h : index.Sound) (value : Json) (position : Nat) :
    (index.push value position).Sound := by
  intro key
  have hkey := h key
  simp only [positionsOf, JoinIndex.push, List.filter_append, List.map_append, Keyed.get?_put] at hkey ⊢
  by_cases heq : value.joinKey = key.joinKey
  · rw [if_pos heq, heq, Option.getD_some, hkey]
    simp [heq]
  · rw [if_neg heq, hkey]
    simp [heq]

/-- What each push keeps, the indexing of further records keeps. -/
theorem pushRecords_keeps {Kept : JoinIndex → Prop}
    (hpush : ∀ index value position, Kept index → Kept (index.push value position))
    {index : JoinIndex} (h : Kept index) (column : String) (position : Nat)
    (records : List Record) : Kept (pushRecords column index position records) := by
  induction records generalizing index position with
  | nil => exact h
  | cons record rest ih =>
    unfold pushRecords
    split
    · exact ih (hpush index _ position h) _
    · exact ih h _

theorem Sound.pushRecords {index : JoinIndex} (h : index.Sound) (column : String) (position : Nat)
    (records : List Record) : (pushRecords column index position records).Sound :=
  pushRecords_keeps (fun _ value position hindex => hindex.push value position) h column position
    records

theorem entries_pushRecords (index : JoinIndex) (column : String) (position : Nat)
    (records : List Record) :
    (pushRecords column index position records).entries =
      index.entries ++ scan column position records := by
  induction records generalizing index position with
  | nil => simp [pushRecords]
  | cons record rest ih =>
    rw [scan_cons]
    unfold pushRecords
    cases hvalue : record.get? column with
    | none => exact ih _ _
    | some value =>
      simp only [ih, push, List.append_assoc]
      rfl

theorem single?_pushRecords (index : JoinIndex) (column : String) (position : Nat)
    (records : List Record) :
    (pushRecords column index position records).single? = index.single? :=
  @pushRecords_keeps (fun found => found.single? = index.single?) (fun _ _ _ h => h) index rfl
    column position records

/-! ## Buckets -/

/-- Each bucket stands once, and for the join key of an entry. -/
structure Bucketed (index : JoinIndex) : Prop where
  nodup : (Keyed.keys index.buckets).Nodup
  joined : ∀ text ∈ Keyed.keys index.buckets, ∃ entry ∈ index.entries, entry.1.joinKey = text

theorem bucketed_empty : Bucketed {} := ⟨List.nodup_nil, fun _ h => nomatch h⟩

theorem Bucketed.push {index : JoinIndex} (h : index.Bucketed) (value : Json) (position : Nat) :
    (index.push value position).Bucketed := by
  refine ⟨Keyed.nodup_keys_put h.nodup _ _, fun text htext => ?_⟩
  -- the bucket that is put was there before, or is that of the new entry
  have hkeys : text ∈ Keyed.keys index.buckets ∨ text = value.joinKey := by
    simp only [JoinIndex.push, Keyed.keys_put] at htext
    split at htext
    · exact Or.inl htext
    · exact (List.mem_append.1 htext).imp_right List.mem_singleton.1
  rcases hkeys with hold | rfl
  · obtain ⟨entry, hentry, hjoins⟩ := h.joined text hold
    exact ⟨entry, List.mem_append_left _ hentry, hjoins⟩
  · exact ⟨(value, position), List.mem_append_right _ (List.mem_singleton.2 rfl), rfl⟩

/-- A position stands in an index: in an entry or in a bucket. -/
def Holds (index : JoinIndex) (position : Nat) : Prop :=
  (∃ entry ∈ index.entries, entry.2 = position) ∨ ∃ bucket ∈ index.buckets, position ∈ bucket.2

/-- What stands in a bucket stands in an entry: a bucket is found under the key of an entry. -/
theorem Bucketed.exists_entry {index : JoinIndex} (h : index.Bucketed) (hsound : index.Sound)
    {position : Nat} (hholds : index.Holds position) : ∃ value, (value, position) ∈ index.entries := by
  rcases hholds with ⟨⟨value, i⟩, hentry, rfl⟩ | ⟨⟨text, positions⟩, hbucket, hmem⟩
  · exact ⟨value, hentry⟩
  · obtain ⟨entry, -, rfl⟩ := h.joined text (List.mem_map.2 ⟨_, hbucket, rfl⟩)
    have hfound : index.positionsOf entry.1 = positions := by
      rw [positionsOf, Keyed.get?_of_mem h.nodup hbucket, Option.getD_some]
    have hposition : position ∈ index.positionsOf entry.1 := hfound ▸ hmem
    rw [hsound entry.1] at hposition
    obtain ⟨⟨value, i⟩, hvalue, rfl⟩ := List.mem_map.1 hposition
    exact ⟨value, List.mem_of_mem_filter hvalue⟩

/-! ## The index of an outcome -/

variable {records : List Record} {column : String}

theorem sound_ofRecords : (ofRecords records column).Sound := sound_empty.pushRecords column 0 records

theorem bucketed_ofRecords : (ofRecords records column).Bucketed :=
  pushRecords_keeps (fun _ value position hindex => hindex.push value position) bucketed_empty
    column 0 records

theorem entries_ofRecords : (ofRecords records column).entries = scan column 0 records :=
  entries_pushRecords {} column 0 records

/-- Only a single record leaves its value as the one key. -/
theorem single?_ofOutcome (outcome : Outcome) (column : String) :
    (ofOutcome outcome column).single? =
      match outcome with
      | .record fields => fields.get? column
      | _ => none := by
  cases outcome with
  | record fields =>
    simp only [ofOutcome, ofRecord]
    cases fields.get? column <;> rfl
  | records rows => exact single?_pushRecords {} column 0 rows
  | _ => rfl

/-- **The entries of an index are those of a scan.** -/
theorem entries_ofOutcome (outcome : Outcome) (column : String) :
    (ofOutcome outcome column).entries = scan column 0 outcome.rows := by
  cases outcome with
  | record fields =>
    simp only [ofOutcome, ofRecord, Outcome.rows, scan_cons, scan_nil]
    cases fields.get? column <;> rfl
  | records rows => exact entries_ofRecords
  | _ => rfl

theorem sound_ofOutcome (outcome : Outcome) (column : String) :
    (ofOutcome outcome column).Sound := by
  cases outcome with
  | record fields =>
    simp only [ofOutcome, ofRecord]
    split
    · exact fun key => sound_empty.push _ 0 key
    · exact sound_empty
  | records rows => exact sound_ofRecords
  | _ => exact sound_empty

/-- **The positions found under a key are those of a scan.** -/
theorem positionsOf_ofOutcome (outcome : Outcome) (column : String) (key : Json) :
    (ofOutcome outcome column).positionsOf key = outcome.joining column key := by
  rw [sound_ofOutcome, entries_ofOutcome, scan, Outcome.joining, List.filter_filterMap,
    List.map_filterMap, ← List.filterMap_eq_map, List.filterMap_filter]
  refine List.filterMap_congr fun entry _ => ?_
  unfold Record.joins
  cases entry.1.get? column with
  | none => rfl
  | some value => by_cases heq : value.joinKey = key.joinKey <;> simp [heq]

/-- The record at a position has an entry exactly if it carries the column. -/
theorem find?_ofOutcome (outcome : Outcome) (column : String) (position : Nat) :
    (ofOutcome outcome column).entries.find? (fun entry => entry.2 = position) =
      ((outcome.record? position).bind fun record => record.get? column).map fun value =>
        (value, position) := by
  have hfind := find?_scan column 0 position outcome.rows
  simp only [Nat.zero_add] at hfind
  rw [entries_ofOutcome, Outcome.record?_eq, hfind]

theorem pairwise_ofOutcome (outcome : Outcome) (column : String) :
    (ofOutcome outcome column).entries.Pairwise fun a b => a.2 < b.2 := by
  rw [entries_ofOutcome]
  exact (scan_pairwise column 0 outcome.rows).1

/-! ## The index of a list of records -/

/-- An index says of a column what a scan of the records finds. -/
structure Scans (records : List Record) (column : String) (index : JoinIndex) : Prop where
  /-- The entries are the values of the column with the positions of their records. -/
  mem_entries : ∀ value position, (value, position) ∈ index.entries ↔
    ∃ record, records[position]? = some record ∧ record.get? column = some value
  /-- They stand in the order of the records. -/
  ordered : index.entries.Pairwise fun a b => a.2 < b.2
  /-- Under a key are found the records that carry the column with its join key. -/
  mem_positions : ∀ key position, position ∈ index.positionsOf key ↔
    ∃ record, records[position]? = some record ∧
      ∃ value, record.get? column = some value ∧ value.joinKey = key.joinKey
  /-- And they are found in their order. -/
  rising : ∀ key, (index.positionsOf key).Pairwise (· < ·)
  /-- A position that stands anywhere in the index is that of a record. -/
  in_range : ∀ position, index.Holds position → position < records.length
  /-- It is found under the keys of one join key and under no others. -/
  one_class : ∀ position, index.Holds position →
    ∃ key : Json, ∀ other : Json, position ∈ index.positionsOf other ↔ other.joinKey = key.joinKey

theorem mem_positionsOf_ofRecords {key : Json} {position : Nat} :
    position ∈ (ofRecords records column).positionsOf key ↔
      ∃ record, records[position]? = some record ∧
        ∃ value, record.get? column = some value ∧ value.joinKey = key.joinKey := by
  have hjoining : (ofRecords records column).positionsOf key =
      (Outcome.records records).joining column key := positionsOf_ofOutcome (.records records) _ _
  rw [hjoining, Outcome.mem_joining]
  simp only [Outcome.rows, Record.joins_iff]

/-- A position that stands in the index is that of a record that carries the column. -/
theorem exists_record_of_holds {position : Nat} (h : (ofRecords records column).Holds position) :
    ∃ record value, records[position]? = some record ∧ record.get? column = some value := by
  obtain ⟨value, hentry⟩ := bucketed_ofRecords.exists_entry sound_ofRecords h
  rw [entries_ofRecords] at hentry
  obtain ⟨record, hrecord, hvalue⟩ := mem_scan.1 hentry
  exact ⟨record, value, hrecord, hvalue⟩

/-- A single record is indexed as the list of it alone, but for the one key. -/
theorem ofRecord_eq (record : Record) (column : String) :
    ofRecord record column = { ofRecords [record] column with single? := record.get? column } := by
  unfold ofRecord ofRecords pushRecords
  cases record.get? column <;> rfl

/-- **The index of a list of records is a scan of them**, and has no one key. The index of a single
record is that of the list of it alone, and the value of the record is its one key. -/
theorem ofRecords_scans (records : List Record) (column : String) :
    Scans records column (ofRecords records column) ∧
      (ofRecords records column).single? = none ∧
      ∀ record : Record, ofRecord record column =
        { ofRecords [record] column with single? := record.get? column } := by
  have hordered : (ofRecords records column).entries.Pairwise fun a b => a.2 < b.2 :=
    pairwise_ofOutcome (.records records) column
  have hscans : Scans records column (ofRecords records column) :=
    { mem_entries := by
        intro value position
        rw [entries_ofRecords]
        exact mem_scan
      ordered := hordered
      mem_positions := fun key position => mem_positionsOf_ofRecords
      rising := by
        intro key
        rw [sound_ofRecords, List.pairwise_map]
        exact hordered.sublist List.filter_sublist
      in_range := by
        intro position hholds
        obtain ⟨record, value, hrecord, hvalue⟩ := exists_record_of_holds hholds
        exact (List.getElem?_eq_some_iff.1 hrecord).1
      one_class := by
        intro position hholds
        obtain ⟨record, value, hrecord, hvalue⟩ := exists_record_of_holds hholds
        refine ⟨value, fun other => ?_⟩
        -- one record stands at the position, and it carries one value
        simp only [mem_positionsOf_ofRecords, hrecord, hvalue, Option.some.injEq, exists_eq_left']
        exact eq_comm }
  exact ⟨hscans, single?_pushRecords {} column 0 records, fun record => ofRecord_eq record column⟩

end JoinIndex

end NestedQuery
