import NestedQuery.Proofs.Json.Paths
/-!
# What a write changes

A write is done as a whole or not at all. It goes through if each value
above the end of its path is an object, null or missing (`Json.Open`);
then the value stands at the path, places that are neither above nor
below the path are as they were, and no key has lost its place
(`Json.Wrote`). Otherwise nothing has changed.

To write, one may as well go down key by key and open every place on the
way before looking behind it (`Json.writeOpening`). Nothing half made is
left by that, for behind a place that had to be opened nothing blocks.
-/

namespace NestedQuery

namespace Keyed

variable {α : Type}

/-- Of writes under one key the later counts. -/
theorem put_put (entries : Keyed α) (key : String) (value more : α) :
    put (put entries key value) key more = put entries key more := by
  induction entries with
  | nil => simp [put]
  | cons entry rest ih =>
    obtain ⟨k, v⟩ := entry
    by_cases heq : k = key <;> simp [put, heq, ih]

/-- To write what is there changes nothing. -/
theorem put_self {entries : Keyed α} {key : String} {value : α} (h : get? entries key = some value) :
    put entries key value = entries := by
  induction entries with
  | nil => cases h
  | cons entry rest ih =>
    obtain ⟨k, v⟩ := entry
    rw [get?_cons] at h
    rw [put]
    split
    · next heq =>
      rw [if_pos heq] at h
      rw [Option.some.inj h]
    · next heq =>
      rw [if_neg heq] at h
      rw [ih h]

/-- A write leaves the keys in their places. -/
theorem keys_prefix_put (entries : Keyed α) (key : String) (value : α) :
    keys entries <+: keys (put entries key value) := by
  rw [keys_put]
  split
  · exact List.prefix_refl _
  · exact List.prefix_append _ _

end Keyed

namespace Json

/-! ## Look-up along a path -/

/-- Nothing stands below null. -/
theorem at?_null {path : List String} (hpath : path ≠ []) : null.at? path = none := by
  cases path with
  | nil => exact absurd rfl hpath
  | cons key rest => rfl

/-- Nothing stands below an empty record. -/
theorem at?_empty {path : List String} (hpath : path ≠ []) : (obj []).at? path = none := by
  cases path with
  | nil => exact absurd rfl hpath
  | cons key rest => rfl

theorem at?_obj_cons (record : Record) (key : String) (rest : List String) :
    (obj record).at? (key :: rest) = (record.get? key).bind fun found => found.at? rest := rfl

theorem at?_put (record : Record) (key : String) (value : Json) (other : String)
    (rest : List String) :
    (obj (record.put key value)).at? (other :: rest) =
      if key = other then value.at? rest else (obj record).at? (other :: rest) := by
  rw [at?_obj_cons, Keyed.get?_put]
  split
  · rfl
  · rfl

/-! ## Where a write goes through -/

/-- The record to write below a place, given what stands there; none if it blocks the way. -/
def room? : Option Json → Option Record
  | none | some null => some []
  | some (obj inner) => some inner
  | some _ => none

theorem room?_isSome_iff (found : Option Json) :
    (room? found).isSome ↔ ∀ value, found = some value → value = null ∨ ∃ fields, value = obj fields := by
  cases found with
  | none => simp [room?]
  | some value => cases value <;> simp [room?]

/-- What stands below a place stands below the record that is written there. -/
theorem at?_room {found : Option Json} {inner : Record} (h : room? found = some inner)
    {path : List String} (hpath : path ≠ []) :
    (found.bind fun value => value.at? path) = (obj inner).at? path := by
  cases found with
  | none =>
    obtain rfl := Option.some.inj h
    exact (at?_empty hpath).symm
  | some value =>
    cases value with
    | null =>
      obtain rfl := Option.some.inj h
      exact (at?_null hpath).trans (at?_empty hpath).symm
    | obj fields =>
      obtain rfl := Option.some.inj h
      rfl
    | _ => cases h

theorem clear_single (key : String) (record : Record) : Clear [key] record := by
  unfold Clear
  trivial

theorem clear_empty (path : List String) : Clear path [] := by
  unfold Clear
  split <;> trivial

/-- Below a first key a way is clear if it is clear in the record to write there. -/
theorem clear_cons_iff {record : Record} {key next : String} {rest : List String} :
    Clear (key :: next :: rest) record ↔
      ∃ inner, room? (record.get? key) = some inner ∧ Clear (next :: rest) inner := by
  have hempty := clear_empty (next :: rest)
  rw [Clear]
  cases record.get? key with
  | none => simp [room?, hempty]
  | some found => cases found <;> simp [room?, hempty]

/-- Whatever stands above the end of a path is null or an object. -/
def Open (record : Record) (path : List String) : Prop :=
  ∀ above rest found, path = above ++ rest → rest ≠ [] → (obj record).at? above = some found →
    found = null ∨ ∃ fields, found = obj fields

/-- The root is above every path, and it is an object. -/
theorem root_open {record : Record} {found : Json} (h : (obj record).at? [] = some found) :
    found = null ∨ ∃ fields, found = obj fields :=
  Or.inr ⟨record, (Option.some.inj h).symm⟩

theorem open_nil (record : Record) : Open record [] := by
  intro above rest _ heq hrest _
  exact absurd (List.append_eq_nil_iff.1 heq.symm).2 hrest

theorem open_single (record : Record) (key : String) : Open record [key] := by
  intro above rest found heq hrest hfound
  cases above with
  | nil => exact root_open hfound
  | cons first above =>
    exact absurd (List.append_eq_nil_iff.1 (List.cons.inj heq).2.symm).2 hrest

/-- Below a first key a way is open if it is open in the record to write there. -/
theorem open_cons_iff {record : Record} {key next : String} {rest : List String} :
    Open record (key :: next :: rest) ↔
      ∃ inner, room? (record.get? key) = some inner ∧ Open inner (next :: rest) := by
  constructor
  · intro h
    have hroom := (room?_isSome_iff (record.get? key)).2 fun value hvalue =>
      h [key] (next :: rest) value rfl (by simp) (by rw [at?_obj_cons, hvalue]; rfl)
    obtain ⟨inner, hinner⟩ := Option.isSome_iff_exists.1 hroom
    refine ⟨inner, hinner, fun above below found heq hbelow hfound => ?_⟩
    cases above with
    | nil => exact root_open hfound
    | cons first above =>
      refine h (key :: first :: above) below found (by rw [heq]; rfl) hbelow ?_
      rw [at?_obj_cons, at?_room hinner (by simp), hfound]
  · rintro ⟨inner, hinner, hopen⟩ above below found heq hbelow hfound
    cases above with
    | nil => exact root_open hfound
    | cons first above =>
      obtain ⟨rfl, hsplit⟩ := List.cons.inj heq
      rw [at?_obj_cons] at hfound
      cases above with
      | nil =>
        refine (room?_isSome_iff (record.get? key)).1 (by rw [hinner]; rfl) found ?_
        simpa [at?] using hfound
      | cons second above =>
        rw [at?_room hinner (by simp)] at hfound
        exact hopen (second :: above) below found hsplit hbelow hfound

/-- **The way to the end of a path is clear if it is open above.** -/
theorem clear_iff_open (path : List String) (record : Record) :
    Clear path record ↔ Open record path := by
  induction path generalizing record with
  | nil => exact iff_of_true (clear_empty []) (open_nil record)
  | cons key rest ih =>
    cases rest with
    | nil => exact iff_of_true (clear_single key record) (open_single record key)
    | cons next rest =>
      rw [clear_cons_iff, open_cons_iff]
      exact exists_congr fun inner => and_congr_right fun _ => ih inner

/-! ## Writes that go through -/

/-- A write of a value at a path that went through, from the record before to the one after. -/
inductive Wrote (value : Json) : List String → Record → Record → Prop where
  | last (key : String) (record : Record) : Wrote value [key] record (record.put key value)
  | inside {key next : String} {rest : List String} {record inner written : Record} :
      room? (record.get? key) = some inner → Wrote value (next :: rest) inner written →
      Wrote value (key :: next :: rest) record (record.put key (obj written))

theorem writeBelow?_step (value : Json) (key next : String) (rest : List String)
    (record : Record) :
    writeBelow? value (key :: next :: rest) record =
      (room? (record.get? key)).bind fun inner =>
        (writeBelow? value (next :: rest) inner).map fun written => record.put key (obj written) := by
  rw [writeBelow?_cons]
  cases record.get? key with
  | none => simp [written?, room?, Function.comp_def]
  | some found => cases found <;> simp [written?, room?, Function.comp_def]

theorem wrote_iff {value : Json} {path : List String} {record written : Record} :
    Wrote value path record written ↔ writeBelow? value path record = some written := by
  constructor
  · intro h
    induction h with
    | last key record => rfl
    | inside hroom _ ih => rw [writeBelow?_step, hroom, Option.bind_some, ih, Option.map_some]
  · intro h
    induction path generalizing record written with
    | nil => cases h
    | cons key rest ih =>
      cases rest with
      | nil =>
        obtain rfl := Option.some.inj h
        exact .last key record
      | cons next rest =>
        rw [writeBelow?_step] at h
        obtain ⟨inner, hinner, h⟩ := Option.bind_eq_some_iff.1 h
        obtain ⟨deeper, hdeeper, rfl⟩ := Option.map_eq_some_iff.1 h
        exact .inside hinner (ih hdeeper)

/-- Where the way is clear a write goes through. -/
theorem exists_wrote (value : Json) {path : List String} {record : Record} (hpath : path ≠ [])
    (hclear : Clear path record) : ∃ written, Wrote value path record written := by
  have hsome := (writeBelow?_isSome_iff value hpath record).2 hclear
  obtain ⟨written, hwritten⟩ := Option.isSome_iff_exists.1 hsome
  exact ⟨written, wrote_iff.2 hwritten⟩

namespace Wrote

variable {value : Json} {path : List String} {record written : Record}

theorem writeInto_eq (h : Wrote value path record written) :
    writeInto record path value = written := by
  rw [writeInto, wrote_iff.1 h, Option.getD_some]

/-- What is neither above nor below the path is as it was. -/
theorem at?_apart (h : Wrote value path record written) {other : List String}
    (habove : ¬ other <+: path) (hbelow : ¬ path <+: other) :
    (obj written).at? other = (obj record).at? other := by
  induction h generalizing other with
  | last key record =>
    cases other with
    | nil => exact absurd List.nil_prefix habove
    | cons first rest =>
      rw [at?_put, if_neg]
      rintro rfl
      exact hbelow (List.cons_prefix_cons.2 ⟨rfl, List.nil_prefix⟩)
  | @inside key next rest record inner written hroom _ ih =>
    cases other with
    | nil => exact absurd List.nil_prefix habove
    | cons first more =>
      rw [at?_put]
      split
      · next heq =>
        subst heq
        simp only [List.cons_prefix_cons, true_and] at habove hbelow
        have hmore : more ≠ [] := fun hnil => habove (hnil ▸ List.nil_prefix)
        rw [ih (fun hpre => habove hpre) (fun hpre => hbelow hpre), at?_obj_cons,
          at?_room hroom hmore]
      · rfl

/-- No key loses its place, in whatever record that is not written over. -/
theorem keys_kept (h : Wrote value path record written) {place : List String} {fields : Record}
    (hover : ¬ path <+: place) (hfields : (obj record).at? place = some (obj fields)) :
    ∃ fields', (obj written).at? place = some (obj fields') ∧
      Keyed.keys fields <+: Keyed.keys fields' := by
  induction h generalizing place with
  | last key record =>
    cases place with
    | nil =>
      obtain rfl : record = fields := obj.inj (Option.some.inj hfields)
      exact ⟨_, rfl, Keyed.keys_prefix_put record key value⟩
    | cons first rest =>
      rw [at?_put, if_neg]
      · exact ⟨fields, hfields, List.prefix_refl _⟩
      · rintro rfl
        exact hover (List.cons_prefix_cons.2 ⟨rfl, List.nil_prefix⟩)
  | @inside key next rest record inner written hroom _ ih =>
    cases place with
    | nil =>
      obtain rfl : record = fields := obj.inj (Option.some.inj hfields)
      exact ⟨_, rfl, Keyed.keys_prefix_put record key (obj written)⟩
    | cons first more =>
      rw [at?_put]
      split
      · next heq =>
        subst heq
        refine ih (fun hpre => hover (List.cons_prefix_cons.2 ⟨rfl, hpre⟩)) ?_
        rw [at?_obj_cons] at hfields
        cases more with
        | nil =>
          -- a place on the way that holds a record is written below that record
          obtain ⟨found, hfound, hobj⟩ := Option.bind_eq_some_iff.1 hfields
          obtain rfl : found = obj fields := Option.some.inj hobj
          rw [hfound] at hroom
          obtain rfl : fields = inner := Option.some.inj hroom
          rfl
        | cons second more => rwa [at?_room hroom (by simp)] at hfields
      · exact ⟨fields, hfields, List.prefix_refl _⟩

/-- The same write once more changes nothing. -/
theorem again (h : Wrote value path record written) : Wrote value path written written := by
  induction h with
  | last key record =>
    have hlast : Wrote value [key] (record.put key value) ((record.put key value).put key value) :=
      .last key _
    rwa [Keyed.put_put] at hlast
  | @inside key next rest record inner written _ _ ih =>
    have hroom : room? ((record.put key (obj written)).get? key) = some written := by
      rw [Keyed.get?_put, if_pos rfl, room?]
    have hbelow := Wrote.inside hroom ih
    rwa [Keyed.put_put] at hbelow

end Wrote

/-! ## Opening the way -/

/-- Writes at a path key by key. A place on the way that is missing or null is opened, as an empty
record, before it is known what stands behind it; at a value that blocks the way the record stays as
it is by then. -/
def writeOpening (value : Json) : List String → Record → Record
  | [], record => record
  | [key], record => record.put key value
  | key :: next :: rest, record =>
    let opened :=
      match record.get? key with
      | none | some null => record.put key (obj [])
      | some _ => record
    match opened.get? key with
    | some (obj inner) => opened.put key (obj (writeOpening value (next :: rest) inner))
    | _ => opened

/-- Opening the way leaves what a write leaves that goes through or does nothing. -/
theorem writeOpening_eq (value : Json) (path : List String) (record : Record) :
    writeOpening value path record = writeInto record path value := by
  induction path generalizing record with
  | nil => rfl
  | cons key rest ih =>
    cases rest with
    | nil => rfl
    | cons next rest =>
      have hinner : ∀ inner, writeOpening value (next :: rest) inner =
          (writeBelow? value (next :: rest) inner).getD inner := ih
      -- behind a place that is opened the way is clear to the end
      obtain ⟨fresh, hfresh⟩ := exists_wrote value (by simp) (clear_empty (next :: rest))
      have hfresh := wrote_iff.1 hfresh
      rw [writeInto, writeBelow?_step, writeOpening]
      cases hfound : record.get? key with
      | none => simp [room?, Keyed.get?_put, Keyed.put_put, hinner, hfresh]
      | some found =>
        cases found with
        | null => simp [room?, Keyed.get?_put, Keyed.put_put, hinner, hfresh]
        | obj inner =>
          simp only [hfound, room?, Option.bind_some, hinner]
          cases writeBelow? value (next :: rest) inner with
          | none =>
            rw [Option.map_none, Option.getD_none, Option.getD_none, Keyed.put_self hfound]
          | some written => rfl
        | _ => simp [room?, hfound]

/-! ## The law of writes -/

/-- A record before and after a write of a value at a path. -/
structure Framed (record : Record) (path : List String) (value : Json) (written : Record) : Prop where
  /-- Where the way is open the value stands at the path. -/
  done : path ≠ [] → Open record path → (obj written).at? path = some value
  /-- Where it is not, or where there is no path, nothing has changed. -/
  undone : path = [] ∨ ¬ Open record path → written = record
  /-- Places that are neither above nor below the path are as they were. -/
  apart : ∀ other, ¬ other <+: path → ¬ path <+: other →
    (obj written).at? other = (obj record).at? other
  /-- In a record that is not written over no key loses its place. -/
  kept : ∀ place fields, ¬ path <+: place → (obj record).at? place = some (obj fields) →
    ∃ fields', (obj written).at? place = some (obj fields') ∧
      Keyed.keys fields <+: Keyed.keys fields'
  /-- The same write once more changes nothing. -/
  again : writeInto written path value = written
  /-- Opening the way key by key has left the same. -/
  opened : writeOpening value path record = written

/-- **Writes are done as a whole or not at all**, and change nothing but what they are for. -/
theorem writeInto_framed (record : Record) (path : List String) (value : Json) :
    Framed record path value (writeInto record path value) := by
  by_cases hwhole : path ≠ [] ∧ Clear path record
  · obtain ⟨hpath, hclear⟩ := hwhole
    obtain ⟨written, hwrote⟩ := exists_wrote value hpath hclear
    rw [hwrote.writeInto_eq]
    refine ⟨fun _ _ => ?_, fun h => ?_, fun other => hwrote.at?_apart,
      fun place fields => hwrote.keys_kept, hwrote.again.writeInto_eq, ?_⟩
    · rw [← hwrote.writeInto_eq]
      exact at?_writeInto hpath hclear
    · exact absurd ((clear_iff_open path record).1 hclear) (h.resolve_left hpath)
    · rw [writeOpening_eq, hwrote.writeInto_eq]
  · have hsame : writeInto record path value = record := by
      rcases Decidable.em (path = []) with rfl | hpath
      · rfl
      · exact writeInto_of_not_clear fun hclear => hwhole ⟨hpath, hclear⟩
    rw [hsame]
    exact ⟨fun hpath hopen => absurd ⟨hpath, (clear_iff_open path record).2 hopen⟩ hwhole,
      fun _ => rfl, fun _ _ _ => rfl, fun _ fields _ h => ⟨fields, h, List.prefix_refl _⟩, hsame,
      (writeOpening_eq value path record).trans hsame⟩

end Json

end NestedQuery
