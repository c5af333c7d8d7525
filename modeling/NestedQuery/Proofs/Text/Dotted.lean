import NestedQuery.Text
/-!
# Dotted texts of paths

The text of a path that goes on is the text of the path, a dot, and the
text of the rest, provided that neither is empty. A text does not give
its path away, as segments may have dots of their own.
-/

namespace NestedQuery

namespace Text

theorem dotted_cons {segment : String} {rest : List String} (h : rest ≠ []) :
    dotted (segment :: rest) = segment ++ "." ++ dotted rest := by
  cases rest with
  | nil => exact absurd rfl h
  | cons next rest => rfl

theorem dotted_append {path more : List String} (hpath : path ≠ []) (hmore : more ≠ []) :
    dotted (path ++ more) = dotted path ++ "." ++ dotted more := by
  induction path with
  | nil => exact absurd rfl hpath
  | cons segment rest ih =>
    cases rest with
    | nil => exact dotted_cons hmore
    | cons next rest =>
      have hsplit : dotted (segment :: next :: rest) = segment ++ "." ++ dotted (next :: rest) := rfl
      rw [List.cons_append, dotted_cons (by simp), ih (by simp), hsplit]
      simp only [String.append_assoc]

/-- A path that goes on has a longer text. -/
theorem length_dotted_append {path more : List String} (hpath : path ≠ []) (hmore : more ≠ []) :
    (dotted path).length < (dotted (path ++ more)).length := by
  rw [dotted_append hpath hmore, String.length_append, String.length_append]
  have hdot : (".".length : Nat) = 1 := by decide
  omega

end Text

end NestedQuery
