import NestedQuery.Text
/-!
# Pieces of a text

A text falls into pieces at a separator in one way (`Text.joins_iff`),
and a text that starts with something and a separator is cut there, if
what it starts with has no separator itself (`Text.cut?_append`).
-/

namespace NestedQuery

namespace Text

/-! ## Up to a mark -/

/-- Text up to a mark that it does not hold is all that stands before it. -/
theorem takeWhile_ne_append {mark : Char} {front : List Char} (h : mark ∉ front) (back : List Char) :
    (front ++ mark :: back).takeWhile (· ≠ mark) = front := by
  rw [List.takeWhile_append_of_pos]
  · simp
  · intro c hc
    simpa using fun heq : c = mark => h (heq ▸ hc)

theorem dropWhile_ne_append {mark : Char} {front : List Char} (h : mark ∉ front) (back : List Char) :
    (front ++ mark :: back).dropWhile (· ≠ mark) = mark :: back := by
  rw [List.dropWhile_append_of_pos]
  · simp
  · intro c hc
    simpa using fun heq : c = mark => h (heq ▸ hc)

theorem cut?_eq_none_iff {separator : Char} {s : String} :
    cut? separator s = none ↔ separator ∉ s.toList := by
  simp [cut?]

/-- A text is cut at its first separator. -/
theorem cut?_eq_some_iff {separator : Char} {s before after : String} :
    cut? separator s = some (before, after) ↔
      separator ∉ before.toList ∧ s.toList = before.toList ++ separator :: after.toList := by
  constructor
  · intro h
    unfold cut? at h
    split at h
    · next hmem =>
      obtain ⟨front, back, hs, hfront⟩ := List.eq_append_cons_of_mem hmem
      rw [hs, takeWhile_ne_append hfront, dropWhile_ne_append hfront] at h
      obtain ⟨rfl, rfl⟩ := Prod.mk.inj (Option.some.inj h)
      simpa [hs] using hfront
    · cases h
  · rintro ⟨hbefore, hs⟩
    rw [cut?, hs, if_pos (by simp), takeWhile_ne_append hbefore, dropWhile_ne_append hbefore]
    simp

/-! ## Between separators -/

/-- A text consists of some pieces with a separator between them, and no piece holds a
separator. -/
structure Joins (separator : Char) (parts : List String) (s : String) : Prop where
  nonempty : parts ≠ []
  apart : ∀ part ∈ parts, separator ∉ part.toList
  text : [separator].intercalate (parts.map String.toList) = s.toList

theorem notMem_of_mem_splitOn {separator : Char} {cs piece : List Char}
    (h : piece ∈ cs.splitOn separator) : separator ∉ piece := by
  rw [List.splitOn] at h
  induction cs generalizing piece with
  | nil =>
    rw [List.splitOnP_nil, List.mem_singleton] at h
    simp [h]
  | cons c rest ih =>
    rw [List.splitOnP_cons_eq_if_modifyHead] at h
    split at h
    · rcases List.mem_cons.1 h with rfl | h
      · exact List.not_mem_nil
      · exact ih h
    · next hc =>
      obtain ⟨first, others, hsplit⟩ := List.exists_cons_of_ne_nil
        (List.splitOnP_ne_nil (· == separator) rest)
      rw [hsplit, List.modifyHead_cons] at h
      rw [hsplit] at ih
      rcases List.mem_cons.1 h with rfl | h
      · have hne : separator ≠ c := fun heq => hc (by simp [heq])
        simpa [hne] using ih (List.mem_cons_self ..)
      · exact ih (List.mem_cons_of_mem _ h)

/-- **A text consists of its pieces**, and of no others. -/
theorem joins_iff {separator : Char} {parts : List String} {s : String} :
    Joins separator parts s ↔ parts = pieces separator s := by
  have hpieces : (pieces separator s).map String.toList = s.toList.splitOn separator := by
    simp [pieces, Function.comp_def]
  constructor
  · rintro ⟨hnonempty, hapart, htext⟩
    have hfree : ∀ part ∈ parts.map String.toList, separator ∉ part := by simpa using hapart
    have hsplit := List.splitOn_intercalate separator hfree (by simpa using hnonempty)
    rw [htext] at hsplit
    simp [pieces, hsplit, Function.comp_def]
  · rintro rfl
    refine ⟨?_, fun part hpart => ?_, by rw [hpieces, List.intercalate_splitOn]⟩
    · simp [pieces, List.splitOn, List.splitOnP_ne_nil]
    · exact notMem_of_mem_splitOn (hpieces ▸ List.mem_map_of_mem hpart)

end Text

end NestedQuery
