import NestedQuery.Proofs.Json.Distinct
import NestedQuery.Proofs.Json.Paths
/-!
# Values without a key

To leave one key out of account in the records at some place of a value
is to drop it there (`Json.forget`), and two values that are then equal
differ in nothing but the presence and the value of this key. The place
is told by paths that lead from records to the records below them. The
same can be done to a request, where each path is the key of a node.

What is dropped stands under the first key of the first path, so it does
not matter to writes under other keys (`Record.Confined.writeInto`).
-/

namespace NestedQuery

/-! ## One key of a keyed list -/

namespace Keyed

variable {α : Type}

/-- Changes what stands under a key. -/
def adjust (f : α → α) (entries : Keyed α) (key : String) : Keyed α :=
  entries.map fun entry => if entry.1 = key then (entry.1, f entry.2) else entry

variable {f : α → α} {entries : Keyed α} {key other : String} {value : α}

theorem keys_adjust : keys (adjust f entries key) = keys entries := by
  rw [keys, adjust, List.map_map]
  refine List.map_congr_left fun entry _ => ?_
  by_cases heq : entry.1 = key <;> simp [heq]

theorem adjust_cons (k : String) (v : α) (rest : Keyed α) :
    adjust f ((k, v) :: rest) key = (if k = key then (k, f v) else (k, v)) :: adjust f rest key :=
  rfl

theorem get?_adjust_ne (h : key ≠ other) :
    get? (adjust f entries key) other = get? entries other := by
  induction entries with
  | nil => rfl
  | cons entry rest ih =>
    obtain ⟨k, v⟩ := entry
    by_cases heq : k = key
    · subst heq
      simp [adjust_cons, get?_cons, h, ih]
    · simp [adjust_cons, get?_cons, heq, ih]

theorem adjust_put (f : α → α) (entries : Keyed α) (key : String) (value : α) :
    adjust f (put entries key value) key = put (adjust f entries key) key (f value) := by
  induction entries with
  | nil => simp [adjust, put]
  | cons entry rest ih =>
    obtain ⟨k, v⟩ := entry
    by_cases heq : k = key <;> simp [adjust_cons, put, heq, ih]

theorem adjust_put_ne (h : key ≠ other) :
    adjust f (put entries other value) key = put (adjust f entries key) other value := by
  induction entries with
  | nil => simp [adjust, put, h.symm]
  | cons entry rest ih =>
    obtain ⟨k, v⟩ := entry
    by_cases hother : k = other
    · subst hother
      simp [adjust_cons, put, h.symm]
    · by_cases heq : k = key <;> simp [adjust_cons, put, hother, heq, ih, h]

theorem erase_cons (k : String) (v : α) (rest : Keyed α) (key : String) :
    erase ((k, v) :: rest) key = if k = key then erase rest key else (k, v) :: erase rest key := by
  by_cases heq : k = key <;> simp [erase, heq]

theorem erase_put (entries : Keyed α) (key : String) (value : α) :
    erase (put entries key value) key = erase entries key := by
  induction entries with
  | nil => simp [put, erase_cons]
  | cons entry rest ih =>
    obtain ⟨k, v⟩ := entry
    by_cases heq : k = key <;> simp [put, erase_cons, heq, ih]

theorem erase_put_ne (h : key ≠ other) :
    erase (put entries other value) key = put (erase entries key) other value := by
  induction entries with
  | nil => simp [erase, put, h.symm]
  | cons entry rest ih =>
    obtain ⟨k, v⟩ := entry
    by_cases hother : k = other
    · subst hother
      simp [put, erase_cons, h.symm]
    · by_cases heq : k = key <;> simp [put, erase_cons, hother, heq, ih, h]

end Keyed

/-! ## Forgetting -/

namespace Json

/-- Changes a record; other values stay as they are. -/
def onRecord (f : Record → Record) : Json → Json
  | obj fields => obj (f fields)
  | other => other

/-- Changes the record that stands at a place, or each record of the list there. -/
def onRecords (f : Record → Record) : Json → Json
  | arr items => arr (items.map (onRecord f))
  | other => other.onRecord f

/-- Changes what stands at a path below a record. -/
def adjustBelow (f : Json → Json) : List String → Record → Record
  | [], record => record
  | [key], record => record.adjust f key
  | key :: next :: rest, record => record.adjust (onRecord (adjustBelow f (next :: rest))) key

end Json

/-- A record without a key in the records below it, each path leading from records to those below
them. -/
def Record.forget (key : String) : List (List String) → Record → Record
  | [], record => record.erase key
  | path :: rest, record => Json.adjustBelow (Json.onRecords (Record.forget key rest)) path record

/-- A value without a key in the records below it. -/
def Json.forget (value : Json) (key : String) (paths : List (List String)) : Json :=
  value.onRecords (Record.forget key paths)

/-! ## What is changed under one key only -/

/-- A change of records that concerns nothing but what stands under a key. -/
structure Record.Confined (key : String) (f : Record → Record) : Prop where
  get? : ∀ (record : Record) (other : String), key ≠ other →
    Keyed.get? (f record) other = Keyed.get? record other
  put : ∀ (record : Record) (other : String) (value : Json), key ≠ other →
    f (Keyed.put record other value) = Keyed.put (f record) other value

namespace Record

variable {key first : String} {f : Record → Record}

theorem confined_erase (key : String) : Confined key fun record => Keyed.erase record key where
  get? := fun record other hne => by rw [Keyed.get?_erase, if_neg hne]
  put := fun _ _ _ hne => Keyed.erase_put_ne hne

theorem confined_adjust (f : Json → Json) (key : String) :
    Confined key fun record => Keyed.adjust f record key where
  get? := fun _ _ hne => Keyed.get?_adjust_ne hne
  put := fun _ _ _ hne => Keyed.adjust_put_ne hne

/-- Below a path one key of a record is changed, the first of the path. -/
theorem confined_adjustBelow (f : Json → Json) {path : List String}
    (hfirst : path.head? = some first) : Confined first (Json.adjustBelow f path) := by
  obtain ⟨rest, rfl⟩ := List.head?_eq_some_iff.1 hfirst
  cases rest with
  | nil => exact confined_adjust f first
  | cons next rest => exact confined_adjust (Json.onRecord (Json.adjustBelow f (next :: rest))) first

/-- What is changed under one key does not matter to writes under another one. -/
theorem Confined.writeInto (h : Confined key f) {path : List String} (hne : path.head? ≠ some key)
    (record : Record) (value : Json) :
    f (Json.writeInto record path value) = Json.writeInto (f record) path value := by
  cases path with
  | nil => rfl
  | cons other rest =>
    have hother : key ≠ other := fun heq => hne (congrArg some heq.symm)
    have hget : Keyed.get? (f record) other = Keyed.get? record other := h.get? record other hother
    rw [Json.writeInto, Json.writeInto, Json.writeBelow?_cons, Json.writeBelow?_cons, hget]
    cases Json.written? value rest (Keyed.get? record other) with
    | none => rfl
    | some new => exact h.put record other new hother

/-- So records that such a change makes equal it makes equal after the write, too. -/
theorem Confined.writeInto_congr (h : Confined key f) {path : List String}
    (hne : path.head? ≠ some key) {record record' : Record} (hsame : f record = f record')
    (value : Json) :
    f (Json.writeInto record path value) = f (Json.writeInto record' path value) := by
  rw [h.writeInto hne, h.writeInto hne, hsame]

/-- A write under a key that is dropped is not seen. -/
theorem erase_writeInto {path : List String} (hkey : path.head? = some key) (record : Record)
    (value : Json) : Keyed.erase (Json.writeInto record path value) key = Keyed.erase record key := by
  obtain ⟨rest, rfl⟩ := List.head?_eq_some_iff.1 hkey
  rw [Json.writeInto, Json.writeBelow?_cons]
  cases Json.written? value rest (Keyed.get? record key) with
  | none => rfl
  | some new => exact Keyed.erase_put record key new

/-- The key under which forgetting changes a record. -/
def forgotten? (key : String) : List (List String) → Option String
  | [] => some key
  | path :: _ => path.head?

theorem confined_forget (key : String) {paths : List (List String)}
    (hfirst : forgotten? key paths = some first) : Confined first (Record.forget key paths) := by
  cases paths with
  | nil =>
    obtain rfl := Option.some.inj hfirst
    exact confined_erase key
  | cons path rest => exact confined_adjustBelow _ hfirst

/-- Records that are equal where a key is forgotten stay so when the same is written elsewhere. -/
theorem forget_writeInto_congr {paths : List (List String)} {path : List String}
    (hne : path.head? ≠ forgotten? key paths) {record record' : Record}
    (hsame : record.forget key paths = record'.forget key paths) (value : Json) :
    Record.forget key paths (Json.writeInto record path value) =
      Record.forget key paths (Json.writeInto record' path value) := by
  cases hfirst : forgotten? key paths with
  | some first => exact (confined_forget key hfirst).writeInto_congr (hfirst ▸ hne) hsame value
  | none =>
    -- the first path is empty, and nothing is forgotten
    match paths, hfirst with
    | [] :: rest, _ =>
      have hsame : record = record' := hsame
      rw [hsame]

end Record

/-! ## What is changed below a path -/

namespace Json

variable {f : Json → Json} {value value' : Json} {path : List String}

/-- Where what is written cannot be told apart after a change, neither can the records. -/
theorem adjustBelow_writeBelow? (hvalue : f value = f value') {record written written' : Record}
    (h : writeBelow? value path record = some written)
    (h' : writeBelow? value' path record = some written') :
    adjustBelow f path written = adjustBelow f path written' := by
  induction path generalizing record written written' with
  | nil => cases h
  | cons key rest ih =>
    cases rest with
    | nil =>
      obtain rfl := Option.some.inj h
      obtain rfl := Option.some.inj h'
      rw [adjustBelow, adjustBelow, Keyed.adjust_put, Keyed.adjust_put, hvalue]
    | cons next rest =>
      -- both writes go on into one record, if they go on at all
      have hbelow : ∀ inner : Record,
          written? value (next :: rest) (record.get? key) =
            (writeBelow? value (next :: rest) inner).map obj →
          written? value' (next :: rest) (record.get? key) =
            (writeBelow? value' (next :: rest) inner).map obj →
          adjustBelow f (key :: next :: rest) written = adjustBelow f (key :: next :: rest) written' := by
        intro inner hinner hinner'
        rw [writeBelow?_cons, hinner, Option.map_map] at h
        rw [writeBelow?_cons, hinner', Option.map_map] at h'
        obtain ⟨deeper, hdeeper, rfl⟩ := Option.map_eq_some_iff.1 h
        obtain ⟨deeper', hdeeper', rfl⟩ := Option.map_eq_some_iff.1 h'
        simp only [adjustBelow, Function.comp_apply, Keyed.adjust_put, onRecord, ih hdeeper hdeeper']
      cases hfound : record.get? key with
      | none => exact hbelow [] (by rw [hfound]; rfl) (by rw [hfound]; rfl)
      | some found =>
        cases found with
        | null => exact hbelow [] (by rw [hfound]; rfl) (by rw [hfound]; rfl)
        | obj inner => exact hbelow inner (by rw [hfound]; rfl) (by rw [hfound]; rfl)
        | _ =>
          rw [writeBelow?_cons, hfound] at h
          cases h

theorem adjustBelow_writeInto (hvalue : f value = f value') (path : List String) (record : Record) :
    adjustBelow f path (writeInto record path value) =
      adjustBelow f path (writeInto record path value') := by
  by_cases hclear : Clear path record
  · cases path with
    | nil => rfl
    | cons key rest =>
      have hpath : key :: rest ≠ [] := List.cons_ne_nil _ _
      obtain ⟨written, hwritten⟩ := Option.isSome_iff_exists.1
        ((writeBelow?_isSome_iff value hpath record).2 hclear)
      obtain ⟨written', hwritten'⟩ := Option.isSome_iff_exists.1
        ((writeBelow?_isSome_iff value' hpath record).2 hclear)
      rw [writeInto, writeInto, hwritten, hwritten']
      exact adjustBelow_writeBelow? hvalue hwritten hwritten'
  · rw [writeInto_of_not_clear hclear, writeInto_of_not_clear hclear]

end Json

/-! ## Requests -/

namespace Json

theorem onRecord_distinct {f : Record → Record}
    (hf : ∀ record, (obj record).Distinct → (obj (f record)).Distinct) {value : Json}
    (h : value.Distinct) : (value.onRecord f).Distinct := by
  cases value with
  | obj fields => exact hf fields h
  | _ => exact h

theorem distinctItems_iff (items : List Json) :
    DistinctItems items ↔ ∀ item ∈ items, item.Distinct := by
  induction items with
  | nil => simp [DistinctItems]
  | cons item rest ih => simp [DistinctItems, ih]

theorem onRecords_distinct {f : Record → Record}
    (hf : ∀ record, (obj record).Distinct → (obj (f record)).Distinct) {value : Json}
    (h : value.Distinct) : (value.onRecords f).Distinct := by
  cases value with
  | arr items =>
    have hitems := (distinctItems_iff items).1 h
    refine (distinctItems_iff (items.map (onRecord f))).2 fun item hitem => ?_
    obtain ⟨before, hmem, rfl⟩ := List.mem_map.1 hitem
    exact onRecord_distinct hf (hitems before hmem)
  | obj fields => exact hf fields h
  | _ => exact h

theorem adjust_distinct {f : Json → Json} (hf : ∀ value : Json, value.Distinct → (f value).Distinct)
    {record : Record} (h : (obj record).Distinct) (key : String) :
    (obj (Keyed.adjust f record key)).Distinct := by
  rw [distinct_obj_iff] at h ⊢
  obtain ⟨hnodup, hvalues⟩ := h
  refine ⟨Keyed.keys_adjust.symm ▸ hnodup, fun field hfield => ?_⟩
  obtain ⟨before, hmem, rfl⟩ := List.mem_map.1 hfield
  by_cases heq : before.1 = key
  · rw [if_pos heq]
    exact hf _ (hvalues before hmem)
  · rw [if_neg heq]
    exact hvalues before hmem

theorem adjustBelow_distinct {f : Json → Json}
    (hf : ∀ value : Json, value.Distinct → (f value).Distinct) (path : List String) {record : Record}
    (h : (obj record).Distinct) : (obj (adjustBelow f path record)).Distinct := by
  induction path generalizing record with
  | nil => exact h
  | cons key rest ih =>
    cases rest with
    | nil => exact adjust_distinct hf h key
    | cons next rest =>
      exact adjust_distinct (fun value hvalue => onRecord_distinct (fun _ => ih) hvalue) h key

end Json

namespace Record

/-- No key is repeated for another one being dropped. -/
theorem forget_distinct (key : String) (paths : List (List String)) {record : Record}
    (h : (Json.obj record).Distinct) : (Json.obj (Record.forget key paths record)).Distinct := by
  induction paths generalizing record with
  | nil => exact h.sublist List.filter_sublist
  | cons path rest ih =>
    exact Json.adjustBelow_distinct (fun value hvalue => Json.onRecords_distinct (fun _ => ih) hvalue)
      path h

end Record

end NestedQuery
