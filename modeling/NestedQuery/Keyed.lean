/-!
# Keyed lists

Values under string keys, in the order in which the keys first came.
Records of data, tables of a store and entries of a registry all have
this shape. `put` keeps the place of a key that is already there and
appends a new one, `erase` closes the gap, so order is part of what the
operations promise. A list built by `put` from `[]` holds no key twice
(`nodup_keys_put`).
-/

namespace NestedQuery

/-- Values under string keys, oldest key first. -/
abbrev Keyed (α : Type) := List (String × α)

namespace Keyed

variable {α β : Type}

/-- The value under a key. -/
def get? : Keyed α → String → Option α
  | [], _ => none
  | (k, v) :: rest, key => if k = key then some v else get? rest key

/-- The keys, in order. -/
def keys (entries : Keyed α) : List String := entries.map Prod.fst

/-- Whether a key is present. -/
def has (entries : Keyed α) (key : String) : Bool := (get? entries key).isSome

/-- Writes a value: in place under a key that is present, at the end otherwise. -/
def put : Keyed α → String → α → Keyed α
  | [], key, value => [(key, value)]
  | (k, v) :: rest, key, value =>
    if k = key then (k, value) :: rest else (k, v) :: put rest key value

/-- Removes a key; the others keep their order. -/
def erase (entries : Keyed α) (key : String) : Keyed α :=
  entries.filter fun entry => entry.1 ≠ key

/-- Reads a sequence of writes: a repeated key keeps its first place and takes its last value. -/
def ofWrites (writes : Keyed α) : Keyed α :=
  writes.foldl (fun entries write => put entries write.1 write.2) []

/-! ## What a look-up sees of each operation -/

@[simp] theorem get?_nil (key : String) : get? ([] : Keyed α) key = none := rfl

theorem get?_cons (k : String) (v : α) (rest : Keyed α) (key : String) :
    get? ((k, v) :: rest) key = if k = key then some v else get? rest key := rfl

theorem get?_put (entries : Keyed α) (key : String) (value : α) (other : String) :
    get? (put entries key value) other =
      if key = other then some value else get? entries other := by
  induction entries with
  | nil => rfl
  | cons entry rest ih =>
    obtain ⟨k, v⟩ := entry
    by_cases hk : k = key
    · subst hk
      by_cases ho : k = other <;> simp [put, get?_cons, ho]
    · by_cases ho : k = other
      · subst ho
        simp [put, get?_cons, hk, Ne.symm hk]
      · simp [put, get?_cons, hk, ho, ih]

theorem get?_erase (entries : Keyed α) (key other : String) :
    get? (erase entries key) other = if key = other then none else get? entries other := by
  induction entries with
  | nil => simp [erase]
  | cons entry rest ih =>
    obtain ⟨k, v⟩ := entry
    simp only [erase] at ih ⊢
    by_cases hk : k = key
    · subst hk
      by_cases ho : k = other <;> simp_all [get?_cons]
    · by_cases ho : k = other
      · subst ho
        simp [get?_cons, hk, Ne.symm hk]
      · simp_all [get?_cons]

theorem get?_append (entries more : Keyed α) (key : String) :
    get? (entries ++ more) key = (get? entries key).or (get? more key) := by
  induction entries with
  | nil => simp
  | cons entry rest ih =>
    obtain ⟨k, v⟩ := entry
    by_cases hk : k = key <;> simp [get?_cons, hk, ih]

/-- A key is found exactly where it is listed. -/
theorem get?_isSome_iff (entries : Keyed α) (key : String) :
    (get? entries key).isSome ↔ key ∈ keys entries := by
  induction entries with
  | nil => simp [keys]
  | cons entry rest ih =>
    obtain ⟨k, v⟩ := entry
    by_cases hk : k = key
    · simp [get?_cons, keys, hk]
    · have : key ≠ k := fun h => hk h.symm
      simp_all [get?_cons, keys]

theorem get?_eq_none_iff (entries : Keyed α) (key : String) :
    get? entries key = none ↔ key ∉ keys entries := by
  rw [← get?_isSome_iff, Option.not_isSome_iff_eq_none]

/-- What a look-up returns is one of the entries. -/
theorem mem_of_get? {entries : Keyed α} {key : String} {value : α}
    (h : get? entries key = some value) : (key, value) ∈ entries := by
  induction entries with
  | nil => simp at h
  | cons entry rest ih =>
    obtain ⟨k, v⟩ := entry
    rw [get?_cons] at h
    split at h
    · simp_all
    · exact List.mem_cons_of_mem _ (ih h)

/-! ## The keys after each operation -/

theorem keys_put (entries : Keyed α) (key : String) (value : α) :
    keys (put entries key value) =
      if key ∈ keys entries then keys entries else keys entries ++ [key] := by
  induction entries with
  | nil => simp [put, keys]
  | cons entry rest ih =>
    obtain ⟨k, v⟩ := entry
    simp only [keys] at ih
    by_cases hk : k = key
    · simp [put, keys, hk]
    · have : key ≠ k := fun h => hk h.symm
      by_cases hm : key ∈ rest.map Prod.fst <;> simp_all [put, keys]

/-- Writing never lists a key twice. -/
theorem nodup_keys_put {entries : Keyed α} (h : (keys entries).Nodup) (key : String)
    (value : α) : (keys (put entries key value)).Nodup := by
  rw [keys_put]
  split
  · exact h
  · next hm =>
    refine List.nodup_append.2 ⟨h, by simp, fun a ha b hb => ?_⟩
    simp only [List.mem_singleton] at hb
    exact fun hab => hm (hb ▸ hab ▸ ha)

theorem keys_erase (entries : Keyed α) (key : String) :
    keys (erase entries key) = (keys entries).filter (· ≠ key) := by
  simp [keys, erase, List.filter_map, Function.comp_def]

end Keyed

end NestedQuery
