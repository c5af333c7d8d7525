import NestedQuery.Json.Path
/-!
# Writing at a path

A write goes through if nothing on the way blocks it, and then the value
is found at the path; a blocked write changes nothing. What stands under
a key other than the first of the path is not looked at, and what stands
under the first one is all that matters.
-/

namespace NestedQuery

namespace Json

/-! ## Blocked paths -/

/-- Nothing on the way to the end of a path is anything but an object or null. -/
def Clear : List String → Record → Prop
  | key :: next :: rest, record =>
    match record.get? key with
    | none | some null => True
    | some (obj inner) => Clear (next :: rest) inner
    | some _ => False
  | _, _ => True

/-- A write goes through exactly where the way is clear. -/
theorem writeBelow?_isSome_iff (value : Json) {path : List String} (hpath : path ≠ [])
    (record : Record) : (writeBelow? value path record).isSome ↔ Clear path record := by
  induction path generalizing record with
  | nil => exact absurd rfl hpath
  | cons key rest ih =>
    cases rest with
    | nil => simp [writeBelow?, Clear]
    | cons next rest =>
      unfold writeBelow? Clear
      cases hfound : record.get? key with
      | none =>
        have hempty := (ih (by simp) []).2 (by cases rest <;> simp [Clear])
        obtain ⟨inner, hinner⟩ := Option.isSome_iff_exists.1 hempty
        simp [hinner]
      | some found =>
        cases found with
        | null =>
          have hempty := (ih (by simp) []).2 (by cases rest <;> simp [Clear])
          obtain ⟨inner, hinner⟩ := Option.isSome_iff_exists.1 hempty
          simp [hinner]
        | obj inner =>
          have hinner := ih (by simp) inner
          simp only [Option.bind_eq_bind, ← hinner]
          cases writeBelow? value (next :: rest) inner <;> simp
        | _ => simp

/-- What a write that went through wrote is found at its path. -/
theorem at?_of_writeBelow? {value : Json} {path : List String} {record written : Record}
    (h : writeBelow? value path record = some written) : (obj written).at? path = some value := by
  induction path generalizing record written with
  | nil => cases h
  | cons key rest ih =>
    cases rest with
    | nil =>
      obtain rfl := Option.some.inj h
      simp [at?, get?, Keyed.get?_put]
    | cons next rest =>
      have hbelow : ∀ inner : Record,
          (do return record.put key (obj (← writeBelow? value (next :: rest) inner))) =
            some written → (obj written).at? (key :: next :: rest) = some value := by
        intro inner hwritten
        simp only [Option.bind_eq_bind, Option.bind_eq_some_iff] at hwritten
        obtain ⟨deeper, hdeeper, hwritten⟩ := hwritten
        obtain rfl := Option.some.inj hwritten
        have hfound := ih hdeeper
        simpa [at?, get?, Keyed.get?_put] using hfound
      unfold writeBelow? at h
      split at h
      · exact hbelow [] h
      · exact hbelow [] h
      · exact hbelow _ h
      · cases h

/-! ## Writes into a record -/

/-- **A write that is not blocked is found at its path.** -/
theorem at?_writeInto {value : Json} {path : List String} {record : Record} (hpath : path ≠ [])
    (hclear : Clear path record) : (obj (writeInto record path value)).at? path = some value := by
  have hsome := (writeBelow?_isSome_iff value hpath record).2 hclear
  obtain ⟨written, hwritten⟩ := Option.isSome_iff_exists.1 hsome
  rw [writeInto, hwritten, Option.getD_some]
  exact at?_of_writeBelow? hwritten

/-- A blocked write changes nothing. -/
theorem writeInto_of_not_clear {value : Json} {path : List String} {record : Record}
    (hclear : ¬ Clear path record) : writeInto record path value = record := by
  have hpath : path ≠ [] := by
    rintro rfl
    exact hclear trivial
  have hnone : ¬ (writeBelow? value path record).isSome :=
    fun hsome => hclear ((writeBelow?_isSome_iff value hpath record).1 hsome)
  rw [writeInto, Option.not_isSome_iff_eq_none.1 hnone, Option.getD_none]

/-- What a write puts under the first key of its path, given what stands there. -/
def written? (value : Json) (rest : List String) (found : Option Json) : Option Json :=
  match rest with
  | [] => some value
  | next :: rest =>
    match found with
    | none | some null => (writeBelow? value (next :: rest) []).map obj
    | some (obj inner) => (writeBelow? value (next :: rest) inner).map obj
    | some _ => none

theorem writeBelow?_cons (value : Json) (key : String) (rest : List String) (record : Record) :
    writeBelow? value (key :: rest) record =
      (written? value rest (record.get? key)).map fun new => record.put key new := by
  cases rest with
  | nil => rfl
  | cons next rest =>
    have hmap : ∀ inner : Record,
        (do return record.put key (obj (← writeBelow? value (next :: rest) inner))) =
          ((writeBelow? value (next :: rest) inner).map obj).map fun new => record.put key new := by
      intro inner
      cases writeBelow? value (next :: rest) inner <;> rfl
    unfold writeBelow? written?
    cases hfound : record.get? key with
    | none => exact hmap []
    | some found =>
      cases found with
      | null => exact hmap []
      | obj inner => exact hmap inner
      | _ => rfl

/-- **A write sees and changes one key of a record**: the first of its path. -/
theorem get?_writeInto (record : Record) (key : String) (rest : List String) (value : Json)
    (other : String) :
    (writeInto record (key :: rest) value).get? other =
      if key = other then (written? value rest (record.get? key)).or (record.get? key)
      else record.get? other := by
  rw [writeInto, writeBelow?_cons]
  cases hwritten : written? value rest (record.get? key) with
  | none =>
    by_cases heq : key = other
    · subst heq
      simp
    · simp [heq]
  | some new => simp [Keyed.get?_put]

theorem get?_writeInto_ne {path : List String} {key : String} (h : path.head? ≠ some key)
    (record : Record) (value : Json) :
    (writeInto record path value).get? key = record.get? key := by
  cases path with
  | nil => rfl
  | cons first rest =>
    rw [get?_writeInto, if_neg]
    exact fun heq => h (congrArg some heq)

theorem get?_writeInto_congr {path : List String} {key : String} (h : path.head? = some key)
    {record record' : Record} (hsame : record.get? key = record'.get? key) (value : Json) :
    (writeInto record path value).get? key = (writeInto record' path value).get? key := by
  obtain ⟨rest, rfl⟩ := List.head?_eq_some_iff.1 h
  rw [get?_writeInto, get?_writeInto, if_pos rfl, if_pos rfl, hsame]

/-- A look-up sees one key of an object: the first of its path. -/
theorem at?_congr {record record' : Record} {key : String} (rest : List String)
    (h : record.get? key = record'.get? key) :
    (obj record).at? (key :: rest) = (obj record').at? (key :: rest) := by
  rw [at?, at?, get?, get?, h]

end Json

end NestedQuery
