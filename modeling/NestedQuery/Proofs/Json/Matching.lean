import Mathlib
import NestedQuery.Proofs.Json.JoinKeys
import NestedQuery.Proofs.Json.Sameness
import NestedQuery.Proofs.Resolve.JoinIndex
/-!
# Admitting and stitching by key

A child is found twice, first by the constraint that its parent's key
puts on it and then by the text of its join key. Where keys are plain
both come to the same thing (`Constraint.admits_iff_joinKey_eq`). Where
they are objects they do not: a constraint reads an object as a map, and
the text tells the order of its keys and the sign of a zero. A record
that is admitted is found again exactly if its key is also spelled as
that of the parent is (`Constraint.joinKey_eq_iff_admits_spelled`).
-/

namespace NestedQuery

namespace Constraint

open Json

/-- **On plain values, filters match as join keys do.** One key text is made by one value, the
constraint taken from a value admits what has its key, and that taken from several values admits
what has the key of one of them and is not null. -/
theorem admits_iff_joinKey_eq {a b : Json} (ha : a.Plain) (hb : b.Plain) :
    (a.joinKey = b.joinKey ↔ a = b) ∧
      (a ≠ .null → ∃ constraint, ofKey? a = some constraint ∧
        (constraint.admits b = true ↔ a.joinKey = b.joinKey)) ∧
      ∀ keys : List Json, (∀ key ∈ keys, key.Plain) →
        ((anyOfKeys keys).admits b = true ↔ b ≠ .null ∧ ∃ key ∈ keys, b.joinKey = key.joinKey) := by
  refine ⟨⟨joinKey_inj ha hb, congrArg joinKey⟩, fun hnull => ?_, fun keys hkeys => ?_⟩
  · obtain ⟨constraint, hconstraint⟩ := Option.ne_none_iff_exists'.1 (mt ofKey?_eq_none_iff.1 hnull)
    refine ⟨constraint, hconstraint, (admits_ofKey ha hb hconstraint).trans ?_⟩
    exact ⟨fun heq => heq ▸ rfl, fun heq => (joinKey_inj ha hb heq).symm⟩
  · rw [admits_anyOfKeys hkeys hb, and_comm]
    refine and_congr_right fun _ => ⟨fun hmem => ⟨b, hmem, rfl⟩, ?_⟩
    rintro ⟨key, hmem, heq⟩
    rw [joinKey_inj hb (hkeys key hmem) heq]
    exact hmem

theorem admits_iff_joinKey_eq_text :
    (Json.str "n:1").Plain ∧ (Json.ofNat 1).Plain ∧
      (Json.str "n:1").joinKey ≠ (Json.ofNat 1).joinKey :=
  ⟨.str _, .int _, fun h =>
    Json.noConfusion ((admits_iff_joinKey_eq (.str "n:1") (.int 1)).1.1 h)⟩

end Constraint

namespace Json

/-! ## Spelling -/

mutual

/-- Whether two values that are the same are spelled alike: the fields of their objects come in one
order, and their zeros have one sign. -/
def Spelled : Json → Json → Prop
  | num (.float x), num (.float y) => x.negative = y.negative
  | arr items, arr others => SpelledItems items others
  | obj fields, obj others => SpelledFields fields others
  | _, _ => True

/-- Whether the items of two lists are spelled alike. -/
def SpelledItems : List Json → List Json → Prop
  | item :: items, other :: others => item.Spelled other ∧ SpelledItems items others
  | _, _ => True

/-- Whether fields come in one order and their values are spelled alike. -/
def SpelledFields : List (String × Json) → List (String × Json) → Prop
  | (key, value) :: fields, (other, found) :: others =>
    key = other ∧ value.Spelled found ∧ SpelledFields fields others
  | _, _ => True

end

mutual

theorem spelled_self : ∀ value : Json, value.Spelled value
  | null | bool _ | str _ | num (.int _) => trivial
  | num (.float _) => rfl
  | arr items => spelledItems_self items
  | obj fields => spelledFields_self fields

theorem spelledItems_self : ∀ items : List Json, SpelledItems items items
  | [] => trivial
  | item :: items => ⟨spelled_self item, spelledItems_self items⟩

theorem spelledFields_self : ∀ fields : List (String × Json), SpelledFields fields fields
  | [] => trivial
  | (_, value) :: fields => ⟨rfl, spelled_self value, spelledFields_self fields⟩

end

/-- Double-precision numbers that are the same and have one sign are equal. -/
theorem eq_of_rank_eq {x y : Binary64} (hrank : x.rank = y.rank) (hsign : x.negative = y.negative) :
    x = y := by
  obtain ⟨negative, magnitude, hfinite⟩ := x
  obtain ⟨other, found, hother⟩ := y
  obtain rfl : negative = other := hsign
  have hmagnitude : magnitude = found := by
    cases negative <;> simp only [Binary64.rank, if_true, Bool.false_eq_true, if_false] at hrank <;>
      omega
  subst hmagnitude
  rfl

mutual

/-- **Values that are the same and are spelled alike are equal.** -/
theorem eq_of_same_of_spelled : ∀ v w : Json, w.Distinct → v.same w = true → v.Spelled w → v = w
  | null, w, _, hsame, _ => by
    cases w <;> first | rfl | cases hsame
  | bool b, w, _, hsame, _ => by
    cases w with
    | bool c => rw [same, beq_iff_eq] at hsame; rw [hsame]
    | _ => cases hsame
  | str s, w, _, hsame, _ => by
    cases w with
    | str t => rw [same, beq_iff_eq] at hsame; rw [hsame]
    | _ => cases hsame
  | num n, w, _, hsame, hspelled => by
    cases w with
    | num m =>
      rw [same] at hsame
      cases n with
      | int a =>
        cases m with
        | int b => rw [Number.same, beq_iff_eq] at hsame; rw [hsame]
        | float y => cases hsame
      | float x =>
        cases m with
        | int b => cases hsame
        | float y =>
          rw [Number.same, beq_iff_eq] at hsame
          rw [eq_of_rank_eq hsame hspelled]
    | _ => cases hsame
  | arr items, w, hdistinct, hsame, hspelled => by
    cases w with
    | arr others => rw [eq_of_sameItems items others hdistinct hsame hspelled]
    | _ => cases hsame
  | obj fields, w, hdistinct, hsame, hspelled => by
    cases w with
    | obj others =>
      rw [same, Bool.and_eq_true, beq_iff_eq] at hsame
      rw [eq_of_sameFields fields others hsame.1 hdistinct.2
        (fun field hmem => Keyed.get?_of_mem hdistinct.1 hmem) hsame.2 hspelled]
    | _ => cases hsame

theorem eq_of_sameItems : ∀ items others : List Json, DistinctItems others →
    sameItems items others = true → SpelledItems items others → items = others
  | [], [], _, _, _ => rfl
  | [], _ :: _, _, hsame, _ => by cases hsame
  | _ :: _, [], _, hsame, _ => by cases hsame
  | item :: items, other :: others, hdistinct, hsame, hspelled => by
    rw [sameItems, Bool.and_eq_true] at hsame
    rw [eq_of_same_of_spelled item other hdistinct.1 hsame.1 hspelled.1,
      eq_of_sameItems items others hdistinct.2 hsame.2 hspelled.2]

/-- The values are looked up in a whole object of which the fields are a part. -/
theorem eq_of_sameFields : ∀ (fields others : List (String × Json)) {whole : List (String × Json)},
    fields.length = others.length → DistinctFields others →
      (∀ field ∈ others, Keyed.get? whole field.1 = some field.2) →
      sameFields fields whole = true → SpelledFields fields others → fields = others
  | [], [], _, _, _, _, _, _ => rfl
  | [], _ :: _, _, hlength, _, _, _, _ => by cases hlength
  | _ :: _, [], _, hlength, _, _, _, _ => by cases hlength
  | (key, value) :: fields, (other, found) :: others, whole, hlength, hdistinct, hwhole, hsame,
      hspelled => by
    obtain ⟨rfl, hvalue, hfields⟩ := hspelled
    obtain ⟨hfirst, hrest⟩ := List.forall_mem_cons.1 hwhole
    rw [sameFields, Bool.and_eq_true] at hsame
    rw [hfirst] at hsame
    rw [eq_of_same_of_spelled value found hdistinct.1 hsame.1 hvalue,
      eq_of_sameFields fields others (Nat.succ.inj hlength) hdistinct.2 hrest hsame.2 hfields]

end

end Json

namespace Constraint

open Json

/-- **An object joins to those that are the same and are spelled alike.** The constraint taken from
an object is there and reads objects as maps, so that two objects have one join key if it admits
the other and moreover both are spelled alike. What an index finds under an object are the records
that hold this object with its fields in this order, and no others. -/
theorem joinKey_eq_iff_admits_spelled {a b : Record} (ha : (Json.obj a).Distinct)
    (hb : (Json.obj b).Distinct) :
    (∃ constraint, ofKey? (.obj a) = some constraint ∧
      ((Json.obj a).joinKey = (Json.obj b).joinKey ↔
        constraint.admits (.obj b) = true ∧ (Json.obj a).Spelled (.obj b))) ∧
      ∀ (outcome : Outcome) (column : String) (position : Nat),
        position ∈ (JoinIndex.ofOutcome outcome column).positionsOf (.obj a) ↔
          ∃ row, outcome.rows[position]? = some row ∧ row.get? column = some (.obj a) := by
  refine ⟨⟨.object a, rfl, ?_⟩, fun outcome column position => ?_⟩
  · rw [admits]
    constructor
    · intro hkey
      rw [← eq_of_joinKey_of_not_num (by simp) hkey]
      exact ⟨same_self _ ha, spelled_self _⟩
    · rintro ⟨hsame, hspelled⟩
      rw [eq_of_same_of_spelled _ _ hb hsame hspelled]
  · have hjoins : ∀ row : Record, row.joins column (.obj a) = true ↔
        row.get? column = some (.obj a) := by
      intro row
      unfold Record.joins
      cases row.get? column with
      | none => simp
      | some value =>
        rw [decide_eq_true_eq, Option.some.injEq]
        exact ⟨eq_of_joinKey_of_not_num (by simp), fun heq => heq ▸ rfl⟩
    rw [JoinIndex.positionsOf_ofOutcome, Outcome.joining, List.mem_map]
    constructor
    · rintro ⟨⟨row, i⟩, hmem, rfl⟩
      obtain ⟨hrow, hjoin⟩ := List.mem_filter.1 hmem
      exact ⟨row, List.mem_zipIdx_iff_getElem?.1 hrow, (hjoins row).1 hjoin⟩
    · rintro ⟨row, hrow, hcolumn⟩
      exact ⟨(row, position), List.mem_filter.2
        ⟨List.mem_zipIdx_iff_getElem?.2 hrow, (hjoins row).2 hcolumn⟩, rfl⟩

/-- A place on a shelf. -/
def spot : Record := [("aisle", .ofNat 1), ("row", .ofNat 2)]

/-- The same place with its fields in the other order. -/
def spotTurned : Record := [("row", .ofNat 2), ("aisle", .ofNat 1)]

theorem spot_distinct : (Json.obj spot).Distinct ∧ (Json.obj spotTurned).Distinct :=
  ⟨⟨by decide, trivial, trivial, trivial⟩, ⟨by decide, trivial, trivial, trivial⟩⟩

theorem joinKey_eq_iff_admits_spelled_spot :
    (Json.obj spot).Distinct ∧ (Json.obj spotTurned).Distinct ∧
      (JoinIndex.ofOutcome (.records [[("spot", .obj spotTurned)], [("spot", .obj spot)]])
        "spot").positionsOf (.obj spot) ≠ [] := by
  refine ⟨spot_distinct.1, spot_distinct.2, List.ne_nil_of_mem (a := 1) ?_⟩
  exact ((joinKey_eq_iff_admits_spelled spot_distinct.1 spot_distinct.2).2 _ _ _).2
    ⟨[("spot", .obj spot)], rfl, rfl⟩

/-- The spelling does matter: what is on a place with its fields in one order is admitted to that
place with its fields in the other, and is not found again there. -/
theorem not_joinKey_eq_iff_admits :
    ¬ ∀ (a b : Record) (constraint : Constraint), (Json.obj a).Distinct → (Json.obj b).Distinct →
      ofKey? (.obj a) = some constraint →
        (constraint.admits (.obj b) = true ↔ (Json.obj a).joinKey = (Json.obj b).joinKey) := by
  intro hall
  have hkey := (hall spot spotTurned (.object spot) spot_distinct.1 spot_distinct.2 rfl).1
    (by decide +kernel)
  exact absurd hkey (by decide +kernel)

end Constraint

end NestedQuery
