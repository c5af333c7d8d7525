import NestedQuery.Keyed
import NestedQuery.Number.Basic
/-!
# JSON values

Objects keep the order in which their keys came. That order is visible
in the text of a value but not in its sameness: `Json.same` reads an
object as a map. It therefore means what it should on values without
repeated keys (`Json.Distinct`), which is what the reader makes and the
record operations keep.
-/

namespace NestedQuery

/-- A JSON value. -/
inductive Json where
  | null
  | bool (value : Bool)
  | num (value : Number)
  | str (value : String)
  | arr (items : List Json)
  | obj (fields : List (String × Json))
deriving Inhabited

/-- The fields of an object, in order. -/
abbrev Record := Keyed Json

namespace Json

/-! ## Kinds -/

/-- Whether a value is null. -/
def isNull : Json → Bool
  | null => true
  | _ => false

/-- The fields of an object. -/
def record? : Json → Option Record
  | obj fields => some fields
  | _ => none

/-- The items of a list. -/
def items? : Json → Option (List Json)
  | arr items => some items
  | _ => none

/-- The text of a string. -/
def text? : Json → Option String
  | str s => some s
  | _ => none

/-- The value of a truth value. -/
def bool? : Json → Option Bool
  | bool b => some b
  | _ => none

/-- The value of an integer that is not negative. -/
def nat? : Json → Option Nat
  | num n => n.toNat?
  | _ => none

/-- The value under a key of an object; none for other values. -/
def get? : Json → String → Option Json
  | obj fields, key => Keyed.get? fields key
  | _, _ => none

/-- A natural number as a value. -/
def ofNat (n : Nat) : Json := num (.int n)

/-! ## Sameness -/

mutual

/-- Whether two values are the same; objects are compared key by key. -/
def same : Json → Json → Bool
  | null, null => true
  | bool a, bool b => a == b
  | num a, num b => a.same b
  | str a, str b => a == b
  | arr a, arr b => sameItems a b
  | obj a, obj b => a.length == b.length && sameFields a b
  | _, _ => false

/-- Whether two lists of values are the same, item by item. -/
def sameItems : List Json → List Json → Bool
  | [], [] => true
  | a :: as, b :: bs => a.same b && sameItems as bs
  | _, _ => false

/-- Whether each field is found with the same value in another object. -/
def sameFields : List (String × Json) → List (String × Json) → Bool
  | [], _ => true
  | (key, value) :: rest, other =>
    (match Keyed.get? other key with
      | some found => value.same found
      | none => false) && sameFields rest other

end

/-! ## Repeated keys -/

mutual

/-- No object in the value holds a key twice. -/
def Distinct : Json → Prop
  | null | bool _ | num _ | str _ => True
  | arr items => DistinctItems items
  | obj fields => (Keyed.keys fields).Nodup ∧ DistinctFields fields

/-- No object in the items holds a key twice. -/
def DistinctItems : List Json → Prop
  | [] => True
  | item :: rest => item.Distinct ∧ DistinctItems rest

/-- No object in the values of the fields holds a key twice. -/
def DistinctFields : List (String × Json) → Prop
  | [] => True
  | (_, value) :: rest => value.Distinct ∧ DistinctFields rest

end

end Json

end NestedQuery
