import NestedQuery.Json.Printer
/-!
# Order and join keys

Two readings of a value in a column. `Json.order` is what rows are
sorted by: null first, then by value among values of one kind; lists and
objects, and values of different kinds, are not told apart. `joinKey` is
the text by which the records of a child are found from those of its
parent: a number by its value, everything else by its compact text.
-/

namespace NestedQuery

namespace Json

/-- The order of truth values: false before true. -/
def orderBool : Bool → Bool → Ordering
  | false, true => .lt
  | true, false => .gt
  | _, _ => .eq

/-- The order of two values in a column. -/
def order : Json → Json → Ordering
  | null, null => .eq
  | null, _ => .lt
  | _, null => .gt
  | bool a, bool b => orderBool a b
  | num a, num b => a.order b
  | str a, str b => compare a b
  | _, _ => .eq

theorem order_int (m n : Int) : order (num (.int m)) (num (.int n)) = compare m n :=
  Number.order_int m n

/-- The text by which a value joins. -/
def joinKey : Json → String
  | num n => "n:" ++ n.keyText
  | value => value.compact

end Json

end NestedQuery
