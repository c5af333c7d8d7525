import Mathlib
import NestedQuery.Json.Order
import NestedQuery.Plan.Constraint
import NestedQuery.Proofs.Json.Compact
/-!
# Joining on plain values

Records are joined twice over: a filter admits the children of any
parent, and then the text of a join key tells which parent each of them
belongs to. On the values that one joins on, which are truth values,
integers and texts, both come to the same thing as equality: the text of
a join key is made by one value only (`Json.joinKey_inj`), and a
constraint taken from a key admits that value (`Constraint.admits_ofKey`).
The text is the compact text of the value, which tells all values apart,
but for numbers, whose join keys no other values have.
-/

namespace NestedQuery

namespace Json

/-! ## Plain values -/

/-- The values that one joins on: null, truth values, integers and texts. -/
inductive Plain : Json → Prop where
  | null : Plain .null
  | bool (b : Bool) : Plain (.bool b)
  | int (n : Int) : Plain (.num (.int n))
  | str (s : String) : Plain (.str s)

/-! ## The text of a join key -/

theorem joinKey_eq_compact {a : Json} (h : ∀ n, a ≠ num n) : a.joinKey = a.compact := by
  cases a with
  | num n => exact absurd rfl (h n)
  | _ => rfl

theorem toList_joinKey_num (n : Number) :
    (num n).joinKey.toList = 'n' :: ':' :: n.keyText.toList := by
  rw [joinKey, String.toList_append]
  rfl

/-- Numbers alone have the join keys of numbers: of the others only null has a text that starts as
these do, and it goes on otherwise. -/
theorem exists_num_of_joinKey {a : Json} {n : Number} (h : a.joinKey = (num n).joinKey) :
    ∃ m, a = num m := by
  by_contra hother
  have hchars : a.chars = 'n' :: ':' :: n.keyText.toList := by
    rw [chars, ← joinKey_eq_compact (not_exists.1 hother), h, toList_joinKey_num]
  obtain ⟨c, rest, hopens, hmark⟩ := a.markOf_head
  obtain rfl := (List.cons.inj (hopens.symm.trans hchars)).1
  obtain rfl := eq_null_of_mark hmark
  rw [chars_null] at hchars
  exact absurd (List.cons.inj (List.cons.inj hchars).2).1 (by decide)

/-- The join key of a value that is no number is made by that value only. -/
theorem eq_of_joinKey_of_not_num {a b : Json} (hb : ∀ n, b ≠ num n) (h : a.joinKey = b.joinKey) :
    a = b := by
  have ha : ∀ n, a ≠ num n := by
    rintro n rfl
    obtain ⟨m, rfl⟩ := exists_num_of_joinKey h.symm
    exact hb m rfl
  rw [joinKey_eq_compact ha, joinKey_eq_compact hb] at h
  exact compact_inj h

/-- **The text of a join key is made by one plain value only.** -/
theorem joinKey_inj {a b : Json} (ha : a.Plain) (hb : b.Plain) (h : a.joinKey = b.joinKey) :
    a = b := by
  cases hb with
  | int m =>
    obtain ⟨_, rfl⟩ := exists_num_of_joinKey h
    cases ha with
    | int n =>
      have hchars := congrArg String.toList h
      rw [toList_joinKey_num, toList_joinKey_num, Number.keyText_int, Number.keyText_int] at hchars
      have htext : toString n = toString m :=
        String.toList_inj.1 (List.cons.inj (List.cons.inj hchars).2).2
      rw [Int.repr_injective htext]
  | _ => exact eq_of_joinKey_of_not_num (by simp) h

/-! ## Values that are keys -/

/-- Whether a value joins a record to others at all: null does not, and a list does not join as a
whole. -/
def isKey : Json → Bool
  | null | arr _ => false
  | _ => true

/-- Values with one join key are keys both or neither. -/
theorem isKey_congr {a b : Json} (h : a.joinKey = b.joinKey) : a.isKey = b.isKey := by
  by_cases hnum : ∃ n, b = num n
  · obtain ⟨n, rfl⟩ := hnum
    obtain ⟨m, rfl⟩ := exists_num_of_joinKey h
    rfl
  · rw [eq_of_joinKey_of_not_num (not_exists.1 hnum) h]

/-- A key is told from others by its text as it is by the constraint taken from it: a value is
admitted exactly if it has the join key. -/
def Tells (key value : Json) : Prop :=
  ((Constraint.ofKey? key).getD (.anyOf [])).admits value = true ↔
    key.isKey = true ∧ value.joinKey = key.joinKey

end Json

namespace Constraint

open Json

/-- **The constraint taken from a plain key admits that value alone.** -/
theorem admits_ofKey {key value : Json} {constraint : Constraint} (hkey : key.Plain)
    (hvalue : value.Plain) (h : ofKey? key = some constraint) :
    constraint.admits value = true ↔ value = key := by
  cases hkey with
  | null => cases h
  | bool p =>
    obtain rfl := Option.some.inj h
    cases hvalue with
    | bool q =>
      rw [admits, beq_iff_eq, Json.bool.injEq]
      exact eq_comm
    | _ => simp [admits]
  | int n =>
    obtain rfl := Option.some.inj h
    cases hvalue with
    | int m =>
      rw [admits, Number.order_int, beq_iff_eq, Std.compare_eq_iff_eq, Json.num.injEq,
        Number.int.injEq]
      exact eq_comm
    | _ => simp [admits]
  | str s =>
    obtain rfl := Option.some.inj h
    cases hvalue with
    | str t =>
      rw [admits, beq_iff_eq, Json.str.injEq]
      exact eq_comm
    | _ => simp [admits]

/-- Null alone puts no constraint. -/
theorem ofKey?_eq_none_iff {key : Json} : ofKey? key = none ↔ key = .null := by
  cases key <;> simp [ofKey?]

/-- A constraint is taken from a key, or else nothing is admitted. -/
theorem admits_ofKey?_getD {key value : Json} (hkey : key.Plain) (hvalue : value.Plain) :
    ((ofKey? key).getD (.anyOf [])).admits value = true ↔ value = key ∧ value ≠ .null := by
  cases hconstraint : ofKey? key with
  | none =>
    obtain rfl := ofKey?_eq_none_iff.1 hconstraint
    rw [Option.getD_none, admits, anyAdmits]
    simp
  | some constraint =>
    have hne : key ≠ .null := by
      rw [Ne, ← ofKey?_eq_none_iff, hconstraint]
      exact Option.some_ne_none _
    rw [Option.getD_some, admits_ofKey hkey hvalue hconstraint]
    exact ⟨fun heq => ⟨heq, heq ▸ hne⟩, And.left⟩

theorem anyAdmits_ofKeys_cons (key : Json) (rest : List Json) (value : Json) :
    anyAdmits (ofKeys (key :: rest)) value =
      (((ofKey? key).getD (.anyOf [])).admits value || anyAdmits (ofKeys rest) value) := by
  rw [ofKeys]
  cases ofKey? key with
  | none => simp [admits, anyAdmits]
  | some constraint => simp [anyAdmits]

/-- The constraint taken from several keys admits what one of those taken from them does. -/
theorem admits_anyOfKeys_iff {keys : List Json} {value : Json} :
    (anyOfKeys keys).admits value = true ↔
      ∃ key ∈ keys, ((ofKey? key).getD (.anyOf [])).admits value = true := by
  rw [anyOfKeys, admits]
  induction keys with
  | nil => simp [ofKeys, anyAdmits]
  | cons key rest ih =>
    rw [anyAdmits_ofKeys_cons, Bool.or_eq_true, ih, List.exists_mem_cons_iff]

/-- The constraint taken from several keys admits those of them that are not null. -/
theorem admits_anyOfKeys {keys : List Json} {value : Json} (hkeys : ∀ key ∈ keys, key.Plain)
    (hvalue : value.Plain) :
    (anyOfKeys keys).admits value = true ↔ value ∈ keys ∧ value ≠ .null := by
  rw [admits_anyOfKeys_iff]
  constructor
  · rintro ⟨key, hmem, hadmits⟩
    obtain ⟨rfl, hnull⟩ := (admits_ofKey?_getD (hkeys key hmem) hvalue).1 hadmits
    exact ⟨hmem, hnull⟩
  · rintro ⟨hmem, hnull⟩
    exact ⟨value, hmem, (admits_ofKey?_getD hvalue hvalue).2 ⟨rfl, hnull⟩⟩

/-- Plain keys are told from plain values. -/
theorem tells_of_plain {key value : Json} (hkey : key.Plain) (hvalue : value.Plain) :
    key.Tells value := by
  have hisKey : key.isKey = true ↔ key ≠ .null := by
    cases hkey <;> simp [isKey]
  rw [Tells, admits_ofKey?_getD hkey hvalue, hisKey]
  constructor
  · rintro ⟨rfl, hnull⟩
    exact ⟨hnull, rfl⟩
  · rintro ⟨hnull, hsame⟩
    obtain rfl := joinKey_inj hvalue hkey hsame
    exact ⟨rfl, hnull⟩

end Constraint

end NestedQuery
