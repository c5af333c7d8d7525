import NestedQuery.Json.Basic
/-!
# Values without repeated keys

`Json.Distinct` is what a reader makes and what the operations on
records keep. It is told here through membership, so that it passes to
every part of a value.
-/

namespace NestedQuery

namespace Json

theorem distinctFields_iff (fields : List (String × Json)) :
    DistinctFields fields ↔ ∀ field ∈ fields, field.2.Distinct := by
  induction fields with
  | nil => simp [DistinctFields]
  | cons field rest ih =>
    obtain ⟨key, value⟩ := field
    simp [DistinctFields, ih]

theorem distinct_obj_iff (fields : List (String × Json)) :
    (obj fields).Distinct ↔
      (Keyed.keys fields).Nodup ∧ ∀ field ∈ fields, field.2.Distinct := by
  rw [Distinct, distinctFields_iff]

/-- A part of an object, taken in order, repeats no key if the object does not. -/
theorem Distinct.sublist {fields part : List (String × Json)} (h : (obj fields).Distinct)
    (hpart : part.Sublist fields) : (obj part).Distinct := by
  rw [distinct_obj_iff] at h ⊢
  exact ⟨h.1.sublist (hpart.map Prod.fst), fun field hfield => h.2 field (hpart.subset hfield)⟩

end Json

end NestedQuery
