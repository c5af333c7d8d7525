import Mathlib.Data.Option.Basic
import NestedQuery.Json.Format
/-!
# Formats

A format writes values of one type as objects with the same parts, and
reads them back. Reading looks parts up by name, so an object is read as
its *completion* is (`Json.completed`): what has no part's name is left
out, and a part that is missing stands there with its default. A format
for which this holds, and in which what is written is read back, settles
at once: whatever is read of a value is read again of its writing
(`Json.ReadsBack.formats`).
-/

namespace NestedQuery

/-- A list made of what stands under some names is looked up under these names only. -/
theorem Keyed.get?_filterMap {α : Type} (find : String → Option α) (names : List String)
    (name : String) :
    Keyed.get? (names.filterMap fun other => (find other).map fun value => (other, value)) name =
      if name ∈ names then find name else none := by
  induction names with
  | nil => simp
  | cons first rest ih =>
    rw [List.filterMap_cons]
    by_cases heq : first = name
    · subst heq
      cases hfound : find first with
      | none => simp [ih, hfound]
      | some value => simp [Keyed.get?_cons]
    · have hmem : name ∈ first :: rest ↔ name ∈ rest := by
        rw [List.mem_cons, or_iff_right (Ne.symm heq)]
      cases find first with
      | none => simp only [Option.map_none, ih, hmem]
      | some value => simp only [Option.map_some, Keyed.get?_cons, if_neg heq, ih, hmem]

namespace Json

variable {α β : Type} {write : α → Json} {read : Json → Option α}

/-! ## Reading back -/

/-- What is written is read back. -/
def ReadsBack (write : α → Json) (read : Json → Option α) : Prop :=
  ∀ value, read (write value) = some value

theorem readsBack_str : ReadsBack str text? := fun _ => rfl

theorem readsBack_bool : ReadsBack bool bool? := fun _ => rfl

theorem readsBack_obj : ReadsBack obj record? := fun _ => rfl

theorem readsBack_ofNat : ReadsBack ofNat nat? := by
  intro n
  simp [ofNat, nat?, Number.toNat?]

theorem ReadsBack.ofList (h : ReadsBack write read) : ReadsBack (ofList write) (listOf? read) := by
  intro values
  show (values.map write).mapM read = some values
  induction values with
  | nil => rfl
  | cons value rest ih =>
    rw [List.map_cons, List.mapM_cons, h value, ih]
    rfl

theorem readsBack_ofTexts : ReadsBack ofTexts (listOf? text?) := readsBack_str.ofList

/-! ## Reading part by part

An object that holds what is written of a part is read on with that part. -/

section Parts

variable {parts : Record} {name : String} {value : α} {next : α → Option β} {result : β}

theorem reads_parts {dialect : Dialect} {names : List String} {next : Record → Option β}
    (hnext : next parts = some result) : (parts? dialect names (obj parts) >>= next) = some result :=
  hnext

theorem reads_required (h : ReadsBack write read) (hpart : parts.get? name = some (write value))
    (hnext : next value = some result) : (required parts name read >>= next) = some result := by
  have hread : required parts name read = some value := by
    rw [required, hpart, Option.bind_some, h value]
  rw [hread]
  exact hnext

theorem reads_defaulted {default : α} (h : ReadsBack write read)
    (hpart : parts.get? name = some (write value)) (hnext : next value = some result) :
    (defaulted parts name default read >>= next) = some result := by
  have hread : defaulted parts name default read = some value := by
    unfold defaulted
    rw [hpart]
    exact h value
  rw [hread]
  exact hnext

/-- An optional part that is there must not be written as null, which stands for its absence. -/
theorem reads_optional {value? : Option α} {next : Option α → Option β} (h : ReadsBack write read)
    (hnull : ∀ value, write value ≠ null)
    (hpart : parts.get? name = some (ofOption write value?)) (hnext : next value? = some result) :
    (optional parts name read >>= next) = some result := by
  have hread : optional parts name read = some value? := by
    unfold optional
    rw [hpart]
    cases value? with
    | none => rfl
    | some value =>
      rw [ofOption]
      cases hwritten : write value with
      | null => exact absurd hwritten (hnull value)
      | _ => exact congrArg (Option.map some) (hwritten ▸ h value)
  rw [hread]
  exact hnext

end Parts

/-! ## Completion

To read on from a part of the completion is to read on from that part of the object. That the part
is one of the format, and what its default is, is found by looking it up. -/

/-- An object with the parts of a format and no others, and with the default of each part that is
missing. -/
def completed (names : List String) (defaults fields : Record) : Record :=
  names.filterMap fun name =>
    (Keyed.get? (fields ++ defaults) name).map fun value => (name, value)

section Completion

variable {names : List String} {defaults fields : Record} {name : String}

theorem get?_completed (h : name ∈ names) :
    Keyed.get? (completed names defaults fields) name =
      (Keyed.get? fields name).or (Keyed.get? defaults name) := by
  rw [completed, Keyed.get?_filterMap, if_pos h, Keyed.get?_append]

variable {next more : α → Option β}

theorem completed_required (hnext : ∀ value, next value = more value)
    (h : name ∈ names := by decide) (hdefault : Keyed.get? defaults name = none := by rfl) :
    (required (completed names defaults fields) name read >>= next) =
      (required fields name read >>= more) := by
  unfold required
  rw [get?_completed h, hdefault, Option.or_none, funext hnext]

theorem completed_defaulted {default : α} (hnext : ∀ value, next value = more value)
    (h : name ∈ names := by decide)
    (hdefault : (Keyed.get? defaults name).bind read = some default := by rfl) :
    (defaulted (completed names defaults fields) name default read >>= next) =
      (defaulted fields name default read >>= more) := by
  obtain ⟨value, hvalue, hread⟩ := Option.bind_eq_some_iff.1 hdefault
  unfold defaulted
  rw [get?_completed h, hvalue, funext hnext]
  cases Keyed.get? fields name with
  | none =>
    show (read value >>= more) = (some default >>= more)
    rw [hread]
  | some found => rfl

theorem completed_optional {next more : Option α → Option β}
    (hnext : ∀ value?, next value? = more value?) (h : name ∈ names := by decide)
    (hdefault : Keyed.get? defaults name = some null := by rfl) :
    (optional (completed names defaults fields) name read >>= next) =
      (optional fields name read >>= more) := by
  unfold optional
  rw [get?_completed h, hdefault, funext hnext]
  cases Keyed.get? fields name <;> rfl

end Completion

/-! ## Formats -/

/-- A format of the values of a type. -/
structure Formats (names : List String) (defaults : Record) (write : α → Json)
    (read : Json → Option α) : Prop where
  /-- What is written is read back. -/
  reads_back : ReadsBack write read
  /-- What is read of any value is read again of its writing. -/
  settles : ∀ value, ((read value).map write).bind read = read value
  /-- What is written has all parts, in order. -/
  complete : ∀ value, ∃ fields, write value = obj fields ∧ Keyed.keys fields = names
  /-- An object is read as its completion. -/
  completes : ∀ fields, read (obj (completed names defaults fields)) = read (obj fields)

/-- **A format that reads back settles.** -/
theorem ReadsBack.formats {names : List String} {defaults : Record} (h : ReadsBack write read)
    (hcomplete : ∀ value, ∃ fields, write value = obj fields ∧ Keyed.keys fields = names)
    (hcompletes : ∀ fields, read (obj (completed names defaults fields)) = read (obj fields)) :
    Formats names defaults write read := by
  refine ⟨h, fun value => ?_, hcomplete, hcompletes⟩
  cases read value with
  | none => rfl
  | some found => exact h found

end Json

end NestedQuery
