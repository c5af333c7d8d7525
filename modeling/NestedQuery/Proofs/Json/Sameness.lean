import Mathlib.Data.Option.Basic
import Mathlib.Data.List.Nodup
import NestedQuery.Proofs.Json.Distinct
/-!
# Sameness

`Json.same` reads objects as maps. On values without repeated keys it is
reflexive (`Json.same_self`), and two records are the same object if
look-ups in them find the same values (`Record.Alike.same`). Records
made by the same writes of the same values stay alike.
-/

namespace NestedQuery

namespace Keyed

variable {α : Type}

/-- Where no key is repeated, every entry is found under its key. -/
theorem get?_of_mem {entries : Keyed α} (h : (keys entries).Nodup) {key : String} {value : α}
    (hmem : (key, value) ∈ entries) : get? entries key = some value := by
  induction entries with
  | nil => cases hmem
  | cons entry rest ih =>
    obtain ⟨k, v⟩ := entry
    obtain ⟨hfirst, hrest⟩ := List.nodup_cons.1 h
    rw [get?_cons]
    rcases List.mem_cons.1 hmem with heq | hmem
    · obtain ⟨rfl, rfl⟩ := Prod.mk.inj heq
      rw [if_pos rfl]
    · have hne : k ≠ key := by
        rintro rfl
        exact hfirst (List.mem_map.2 ⟨_, hmem, rfl⟩)
      rw [if_neg hne]
      exact ih hrest hmem

/-- Where no key is repeated, look-ups tell a list but for its order. -/
theorem perm_of_get? {entries other : Keyed α} (h : (keys entries).Nodup)
    (hother : (keys other).Nodup) (hlook : ∀ key, get? entries key = get? other key) :
    entries.Perm other := by
  have hmem : ∀ {list : Keyed α}, (keys list).Nodup → ∀ entry : String × α,
      entry ∈ list ↔ get? list entry.1 = some entry.2 :=
    fun hlist _ => ⟨get?_of_mem hlist, mem_of_get?⟩
  rw [List.perm_ext_iff_of_nodup h.of_map hother.of_map]
  intro entry
  rw [hmem h, hmem hother, hlook]

end Keyed

theorem Number.same_self (n : Number) : n.same n = true := by
  cases n <;> simp [Number.same]

namespace Json

theorem sameFields_iff (fields other : List (String × Json)) :
    sameFields fields other = true ↔
      ∀ field ∈ fields, ∃ found, Keyed.get? other field.1 = some found ∧
        field.2.same found = true := by
  induction fields with
  | nil => simp [sameFields]
  | cons field rest ih =>
    obtain ⟨key, value⟩ := field
    rw [sameFields, Bool.and_eq_true, ih, List.forall_mem_cons]
    refine and_congr_left fun _ => ?_
    cases Keyed.get? other key <;> simp

mutual

/-- **A value without repeated keys is the same as itself.** -/
theorem same_self : ∀ value : Json, value.Distinct → value.same value = true
  | null, _ => rfl
  | bool b, _ => by simp [same]
  | num n, _ => n.same_self
  | str s, _ => by simp [same]
  | arr items, h => sameItems_self items h
  | obj fields, h => by
    have hfound : ∀ field ∈ fields, Keyed.get? fields field.1 = some field.2 :=
      fun field hmem => Keyed.get?_of_mem h.1 hmem
    have hfields := sameFields_self fields h.2 fields hfound
    rw [same, beq_self_eq_true, Bool.true_and]
    exact hfields

theorem sameItems_self : ∀ items : List Json, DistinctItems items → sameItems items items = true
  | [], _ => rfl
  | item :: rest, h => by
    rw [sameItems, same_self item h.1, sameItems_self rest h.2, Bool.true_and]

theorem sameFields_self : ∀ fields : List (String × Json), DistinctFields fields →
    ∀ other : List (String × Json),
      (∀ field ∈ fields, Keyed.get? other field.1 = some field.2) → sameFields fields other = true
  | [], _, _, _ => rfl
  | (key, value) :: rest, h, other, hfound => by
    obtain ⟨hfirst, hrest⟩ := List.forall_mem_cons.1 hfound
    simp only [sameFields, hfirst, same_self value h.1, sameFields_self rest h.2 other hrest,
      Bool.true_and]

end

/-- Lists are the same if they are so item by item. -/
theorem sameItems_map {α : Type} {f g : α → Json} {items : List α}
    (h : ∀ item ∈ items, (f item).same (g item) = true) :
    sameItems (items.map f) (items.map g) = true := by
  induction items with
  | nil => rfl
  | cons item rest ih =>
    obtain ⟨hfirst, hrest⟩ := List.forall_mem_cons.1 h
    rw [List.map_cons, List.map_cons, sameItems, hfirst, ih hrest, Bool.true_and]

end Json

/-! ## Records that are alike -/

/-- Two records without repeated keys that are found to hold the same under every key. -/
structure Record.Alike (a b : Record) : Prop where
  left : (Keyed.keys a).Nodup
  right : (Keyed.keys b).Nodup
  look : ∀ key, Option.Rel (fun v w => Json.same v w = true) (Keyed.get? a key) (Keyed.get? b key)

namespace Record.Alike

variable {a b : Record}

/-- Records that are alike are the same object. -/
theorem same (h : a.Alike b) : (Json.obj a).same (.obj b) = true := by
  have hlength : a.length = b.length := by
    have hperm : (Keyed.keys a).Perm (Keyed.keys b) := by
      refine (List.perm_ext_iff_of_nodup h.left h.right).2 fun key => ?_
      have hlook := h.look key
      rw [← Keyed.get?_isSome_iff, ← Keyed.get?_isSome_iff]
      generalize Keyed.get? a key = v, Keyed.get? b key = w at hlook
      cases hlook <;> simp
    simpa [Keyed.keys] using hperm.length_eq
  rw [Json.same, hlength, beq_self_eq_true, Bool.true_and, Json.sameFields_iff]
  intro field hmem
  have hlook := h.look field.1
  rw [Keyed.get?_of_mem h.left hmem] at hlook
  cases hfound : Keyed.get? b field.1 with
  | none =>
    rw [hfound] at hlook
    cases hlook
  | some found =>
    rw [hfound] at hlook
    cases hlook with
    | some hsame => exact ⟨found, rfl, hsame⟩

/-- The same value under the same key leaves records alike. -/
theorem put (h : a.Alike b) (key : String) {v w : Json} (hsame : v.same w = true) :
    Alike (Keyed.put a key v) (Keyed.put b key w) := by
  refine ⟨Keyed.nodup_keys_put h.left key v, Keyed.nodup_keys_put h.right key w, fun other => ?_⟩
  rw [Keyed.get?_put, Keyed.get?_put]
  split
  · exact .some hsame
  · exact h.look other

/-- Records that are found to hold equal values are alike. -/
theorem of_get?_eq (hleft : (Keyed.keys a).Nodup) (hright : (Keyed.keys b).Nodup)
    (hvalues : ∀ key value, Keyed.get? b key = some value → value.Distinct)
    (hlook : ∀ key, Keyed.get? a key = Keyed.get? b key) : a.Alike b := by
  refine ⟨hleft, hright, fun key => ?_⟩
  rw [hlook key]
  cases hfound : Keyed.get? b key with
  | none => exact .none
  | some value => exact .some (Json.same_self value (hvalues key value hfound))

end Record.Alike

end NestedQuery
