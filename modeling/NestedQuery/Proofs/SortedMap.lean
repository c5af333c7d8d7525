import NestedQuery.Proofs.Json.Sameness
import NestedQuery.SortedMap
/-!
# Sorted maps are told by their look-ups

As the entries of a sorted map stand in the order of their keys, there
is one map for each way to answer look-ups (`SortedMap.ext_get?`). So
insertions under different keys may change places, and a map is made
again of its own entries (`SortedMap.ofList_entries`).
-/

namespace NestedQuery

namespace SortedMap

variable {α : Type}

theorem nodup_keys (map : SortedMap α) : (Keyed.keys map.entries).Nodup := by
  rw [Keyed.keys, List.Nodup, List.pairwise_map]
  refine map.ascending.imp ?_
  intro a b hlt heq
  rw [heq] at hlt
  exact String.lt_irrefl _ hlt

theorem mem_entries {map : SortedMap α} {entry : String × α} :
    entry ∈ map.entries ↔ map.get? entry.1 = some entry.2 :=
  ⟨Keyed.get?_of_mem map.nodup_keys, Keyed.mem_of_get?⟩

/-- **Maps that answer all look-ups alike are equal.** -/
theorem ext_get? {a b : SortedMap α} (h : ∀ key, a.get? key = b.get? key) : a = b := by
  have hperm : a.entries.Perm b.entries := Keyed.perm_of_get? a.nodup_keys b.nodup_keys h
  exact ext (hperm.eq_of_pairwise (fun x y _ _ hxy hyx => absurd hxy (String.lt_asymm hyx))
    a.ascending b.ascending)

/-- Insertions under different keys may change places. -/
theorem insert_comm (map : SortedMap α) {key other : String} (hne : key ≠ other) (value more : α) :
    (map.insert key value).insert other more = (map.insert other more).insert key value := by
  refine ext_get? fun name => ?_
  simp only [get?_insert]
  by_cases hkey : key = name
  · subst hkey
    simp [Ne.symm hne]
  · simp [hkey]

/-- Of insertions under one key the later counts. -/
theorem insert_insert (map : SortedMap α) (key : String) (value more : α) :
    (map.insert key value).insert key more = map.insert key more := by
  refine ext_get? fun name => ?_
  simp only [get?_insert]
  split <;> rfl

theorem get?_ofList {entries : List (String × α)} (h : (Keyed.keys entries).Nodup) (key : String) :
    (ofList entries).get? key = Keyed.get? entries key := by
  have hfold : ∀ map : SortedMap α,
      (entries.foldl (fun map entry => map.insert entry.1 entry.2) map).get? key =
        (Keyed.get? entries key).or (map.get? key) := by
    induction entries with
    | nil => exact fun map => rfl
    | cons entry rest ih =>
      obtain ⟨first, value⟩ := entry
      obtain ⟨hfirst, hrest⟩ := List.nodup_cons.1 h
      intro map
      rw [List.foldl_cons, ih hrest, get?_insert, Keyed.get?_cons]
      by_cases heq : first = key
      · subst heq
        rw [(Keyed.get?_eq_none_iff rest first).2 hfirst]
        simp
      · rw [if_neg heq, if_neg heq]
  exact (hfold empty).trans Option.or_none

/-- **A map is made of its entries.** -/
theorem ofList_entries (map : SortedMap α) : ofList map.entries = map :=
  ext_get? fun key => get?_ofList map.nodup_keys key

end SortedMap

end NestedQuery
