import Mathlib
import NestedQuery.Number.Shortest
/-!
# Decimals that round to a magnitude

The decimals that round to a magnitude lie between the midpoints to its
neighbours. Magnitudes ascend (`Binary64.unitsOf_strictMono`), so two of
them share a midpoint at most, and there only one of the two is even:
a decimal rounds to one magnitude only (`Near.unique`). Between the
midpoints there is room for one of seventeen digits, so the search for
the fewest digits ends on a decimal that rounds to the number
(`Binary64.near_shortest`).
-/

namespace NestedQuery

/-- The value of a decimal. -/
def Decimal.value (d : Decimal) : ℚ := d.digits * (10 : ℚ) ^ d.exponent

namespace Binary64

/-! ## Magnitudes ascend -/

/-- The distance of a magnitude to the next one, in units of `2^(-1074)`. -/
def stepOf (magnitude : Nat) : Nat := Nat.pow 2 (magnitude / binade - 1)

theorem stepOf_pos (m : Nat) : 0 < stepOf m := Nat.pow_pos (by decide)

theorem binade_pos : 0 < binade := by decide

theorem one_pos : 0 < one := by
  unfold one
  generalize 1074 = places
  exact Nat.two_pow_pos places

/-- In units of the step, the magnitudes of one binade follow each other. -/
theorem unitsOf_of_le {m : Nat} (h : binade ≤ m) :
    unitsOf m = (binade + m % binade) * stepOf m := by
  rw [unitsOf, if_neg (Nat.not_lt.2 h), stepOf]

theorem unitsOf_of_lt {m : Nat} (h : m < binade) : unitsOf m = m := if_pos h

theorem stepOf_of_lt {m : Nat} (h : m < binade) : stepOf m = 1 := by
  rw [stepOf, Nat.div_eq_of_lt h]

/-- A step below the first binade, or onto it, is as wide as the ones before. -/
theorem unitsOf_succ_of_lt {m : Nat} (h : m < binade) :
    stepOf (m + 1) = stepOf m ∧ unitsOf (m + 1) = unitsOf m + stepOf m := by
  rw [unitsOf_of_lt h, stepOf_of_lt h]
  rcases Nat.eq_or_lt_of_le h with hopens | hbelow
  · have hopens : m + 1 = binade := hopens
    have hmod : (m + 1) % binade = 0 := by rw [hopens, Nat.mod_self]
    have hstep : stepOf (m + 1) = 1 := by
      rw [stepOf, hopens, Nat.div_self binade_pos]
    rw [unitsOf_of_le (Nat.le_of_eq hopens.symm), hmod, hstep]
    exact ⟨rfl, by omega⟩
  · rw [unitsOf_of_lt hbelow, stepOf_of_lt hbelow]
    exact ⟨rfl, rfl⟩

/-- A step inside a binade is as wide as the one before. -/
theorem unitsOf_succ_within {m : Nat} (hle : binade ≤ m) (h : m % binade + 1 < binade) :
    stepOf (m + 1) = stepOf m ∧ unitsOf (m + 1) = unitsOf m + stepOf m := by
  have hone : 1 % binade = 1 := Nat.mod_eq_of_lt (by decide)
  have hr : (m + 1) % binade = m % binade + 1 := by
    rw [Nat.add_mod, hone, Nat.mod_eq_of_lt h]
  have hq : (m + 1) / binade = m / binade := by
    rw [Nat.succ_div, if_neg, Nat.add_zero]
    rw [Nat.dvd_iff_mod_eq_zero, hr]
    exact Nat.succ_ne_zero _
  have hstep : stepOf (m + 1) = stepOf m := by rw [stepOf, stepOf, hq]
  rw [unitsOf_of_le (Nat.le_succ_of_le hle), unitsOf_of_le hle, hstep, hr]
  exact ⟨rfl, by ring⟩

/-- The last step of a binade opens the next one, whose steps are twice as wide. -/
theorem unitsOf_succ_last {m : Nat} (hle : binade ≤ m) (h : m % binade = binade - 1) :
    stepOf (m + 1) = 2 * stepOf m ∧ unitsOf (m + 1) = unitsOf m + stepOf m ∧
      unitsOf (m + 1) = binade * stepOf (m + 1) := by
  have hpos := binade_pos
  have hdiv : 1 ≤ m / binade := Nat.div_pos hle hpos
  have hr : (m + 1) % binade = 0 := by
    rw [Nat.add_mod, h]
    rfl
  have hq : (m + 1) / binade = m / binade + 1 := by
    rw [Nat.succ_div, if_pos (Nat.dvd_iff_mod_eq_zero.2 hr)]
  have hstep : stepOf (m + 1) = 2 * stepOf m := by
    rw [stepOf, stepOf, hq, show m / binade + 1 - 1 = m / binade - 1 + 1 by omega]
    exact Nat.pow_succ'
  rw [unitsOf_of_le (Nat.le_succ_of_le hle), unitsOf_of_le hle, hstep, hr, h, Nat.add_zero]
  refine ⟨rfl, ?_, rfl⟩
  calc binade * (2 * stepOf m) = 2 * binade * stepOf m := by ring
    _ = (binade + (binade - 1) + 1) * stepOf m := by
        rw [show binade + (binade - 1) + 1 = 2 * binade by omega]
    _ = (binade + (binade - 1)) * stepOf m + stepOf m := by ring

/-- From one magnitude to the next, either both are in one binade or the next one opens a new
binade, whose steps are at most twice as wide. -/
theorem unitsOf_succ_cases (m : Nat) :
    (stepOf (m + 1) = stepOf m ∧ unitsOf (m + 1) = unitsOf m + stepOf m) ∨
      (stepOf (m + 1) = 2 * stepOf m ∧ unitsOf (m + 1) = unitsOf m + stepOf m ∧
        unitsOf (m + 1) = binade * stepOf (m + 1)) := by
  rcases Nat.lt_or_ge m binade with hbelow | hle
  · exact .inl (unitsOf_succ_of_lt hbelow)
  · rcases Nat.lt_or_ge (m % binade + 1) binade with hwithin | hlast
    · exact .inl (unitsOf_succ_within hle hwithin)
    · have hmod := Nat.mod_lt m binade_pos
      exact .inr (unitsOf_succ_last hle (by omega))

theorem unitsOf_succ (m : Nat) : unitsOf (m + 1) = unitsOf m + stepOf m := by
  rcases unitsOf_succ_cases m with ⟨-, h⟩ | ⟨-, h, -⟩ <;> exact h

/-- **The magnitudes ascend.** -/
theorem unitsOf_strictMono : StrictMono unitsOf :=
  strictMono_nat_of_lt_succ fun m => by
    rw [unitsOf_succ]
    exact Nat.lt_add_of_pos_right (stepOf_pos m)

/-- A magnitude has fewer than `2⁵³` steps. -/
theorem unitsOf_lt (m : Nat) : unitsOf m < 2 * binade * stepOf m := by
  rcases Nat.lt_or_ge m binade with hlt | hle
  · rw [unitsOf_of_lt hlt, stepOf_of_lt hlt]
    omega
  · rw [unitsOf_of_le hle]
    refine Nat.mul_lt_mul_of_pos_right ?_ (stepOf_pos m)
    have := Nat.mod_lt m binade_pos
    omega

/-! ## The decimals near a magnitude -/

/-- The midpoint below a magnitude. -/
def lowMidpoint (m : Nat) : ℚ := ((unitsOf (m - 1) : ℚ) + unitsOf m) / (2 * one)

/-- The midpoint above a magnitude. -/
def highMidpoint (m : Nat) : ℚ := ((unitsOf m : ℚ) + unitsOf (m + 1)) / (2 * one)

/-- A value lies between the midpoints around a magnitude, and on them only if that is even. -/
def Near (m : Nat) (v : ℚ) : Prop :=
  if m % 2 = 0 then lowMidpoint m ≤ v ∧ v ≤ highMidpoint m
  else lowMidpoint m < v ∧ v < highMidpoint m

theorem Near.low {m : Nat} {v : ℚ} (h : Near m v) : lowMidpoint m ≤ v := by
  unfold Near at h
  split at h
  · exact h.1
  · exact h.1.le

theorem Near.high {m : Nat} {v : ℚ} (h : Near m v) : v ≤ highMidpoint m := by
  unfold Near at h
  split at h
  · exact h.2
  · exact h.2.le

/-- What lies strictly between the midpoints is near. -/
theorem Near.of_between {m : Nat} {v : ℚ} (hlow : lowMidpoint m < v) (hhigh : v < highMidpoint m) :
    Near m v := by
  unfold Near
  split
  · exact ⟨hlow.le, hhigh.le⟩
  · exact ⟨hlow, hhigh⟩

theorem two_one_pos : (0 : ℚ) < 2 * one := mul_pos two_pos (Nat.cast_pos.2 one_pos)

theorem lowMidpoint_lt {m n : Nat} (h : m < n) : lowMidpoint m < lowMidpoint n := by
  refine div_lt_div_of_pos_right (add_lt_add_of_le_of_lt ?_ ?_) two_one_pos
  · exact Nat.cast_le.2 (unitsOf_strictMono.monotone (Nat.sub_le_sub_right h.le 1))
  · exact Nat.cast_lt.2 (unitsOf_strictMono h)

/-- Of two magnitudes near to one value neither is below the other: they would meet in a midpoint,
and one of two neighbours is odd. -/
theorem Near.not_lt {m n : Nat} {v : ℚ} (hm : Near m v) (hn : Near n v) : ¬m < n := by
  intro hlt
  have hmeet : lowMidpoint n ≤ lowMidpoint (m + 1) := hn.low.trans hm.high
  have hnext : n = m + 1 := by
    by_contra hne
    have hfar : m + 1 < n := by omega
    exact absurd (lowMidpoint_lt hfar) hmeet.not_gt
  subst hnext
  have hon : lowMidpoint (m + 1) = v := le_antisymm hn.low hm.high
  unfold Near at hm hn
  rcases Nat.mod_two_eq_zero_or_one m with heven | hodd
  · rw [if_neg (by omega)] at hn
    exact hn.1.ne hon
  · rw [if_neg (by omega)] at hm
    exact hm.2.ne hon.symm

/-- **A value is near to one magnitude at most.** -/
theorem Near.unique {m n : Nat} {v : ℚ} (hm : Near m v) (hn : Near n v) : m = n :=
  Nat.le_antisymm (Nat.not_lt.1 (Near.not_lt hn hm)) (Nat.not_lt.1 (Near.not_lt hm hn))

theorem near_zero : Near 0 0 := by
  have hlow : lowMidpoint 0 = 0 := by
    rw [lowMidpoint, Nat.zero_sub, unitsOf_of_lt binade_pos, Nat.cast_zero, add_zero, zero_div]
  have hhigh : 0 ≤ highMidpoint 0 :=
    div_nonneg (add_nonneg (Nat.cast_nonneg _) (Nat.cast_nonneg _)) two_one_pos.le
  unfold Near
  rw [if_pos rfl, hlow]
  exact ⟨le_rfl, hhigh⟩

/-! ## Comparing with decimals -/

theorem compare_eq_of_pos {a b : Nat} {p q c : ℚ} (hc : 0 < c) (ha : (a : ℚ) = p * c)
    (hb : (b : ℚ) = q * c) : compare a b = compare p q := by
  rcases Nat.lt_trichotomy a b with h | h | h
  · have hq : p < q := lt_of_mul_lt_mul_right (by rw [← ha, ← hb]; exact_mod_cast h) hc.le
    rw [compare_lt_iff_lt.2 h, compare_lt_iff_lt.2 hq]
  · have hq : p = q := mul_right_cancel₀ hc.ne' (by rw [← ha, ← hb]; exact_mod_cast h)
    rw [compare_eq_iff_eq.2 h, compare_eq_iff_eq.2 hq]
  · have hq : q < p := lt_of_mul_lt_mul_right (by rw [← ha, ← hb]; exact_mod_cast h) hc.le
    rw [compare_gt_iff_gt.2 h, compare_gt_iff_gt.2 hq]

/-- A fraction is compared with a decimal by their values. -/
theorem orderDecimal_eq {num den : Nat} (hden : 0 < den) (digits : Nat) (exponent : Int) :
    orderDecimal num den digits exponent =
      compare ((num : ℚ) / den) (Decimal.value ⟨digits, exponent⟩) := by
  have hq : (0 : ℚ) < den := by exact_mod_cast hden
  unfold orderDecimal Decimal.value
  split
  · next hle =>
    obtain ⟨n, rfl⟩ := Int.eq_ofNat_of_zero_le hle
    refine compare_eq_of_pos hq (div_mul_cancel₀ _ hq.ne').symm ?_
    rw [Int.toNat_natCast]
    push_cast [Nat.pow_eq, zpow_natCast]
    rfl
  · next hlt =>
    obtain ⟨n, rfl⟩ : ∃ n : Nat, exponent = -(n : Int) := ⟨exponent.natAbs, by omega⟩
    have hpow : (0 : ℚ) < 10 ^ n := by positivity
    refine compare_eq_of_pos (mul_pos hq hpow) ?_ ?_
    · rw [neg_neg, Int.toNat_natCast]
      push_cast [Nat.pow_eq]
      field_simp
    · push_cast [zpow_neg, zpow_natCast]
      field_simp

/-- **The test for rounding says what is near.** -/
theorem roundsTo_iff (m digits : Nat) (exponent : Int) :
    roundsTo m digits exponent = true ↔ Near m (Decimal.value ⟨digits, exponent⟩) := by
  have hden : 0 < 2 * one := Nat.mul_pos (by decide) one_pos
  have hlow : ((unitsOf (m - 1) + unitsOf m : Nat) : ℚ) / ((2 * one : Nat) : ℚ) = lowMidpoint m := by
    rw [lowMidpoint]
    push_cast
    rfl
  have hhigh : ((unitsOf m + unitsOf (m + 1) : Nat) : ℚ) / ((2 * one : Nat) : ℚ) =
      highMidpoint m := by
    rw [highMidpoint]
    push_cast
    rfl
  rw [roundsTo, Near, orderDecimal_eq hden, orderDecimal_eq hden, hlow, hhigh]
  split
  · rw [Bool.and_eq_true, Std.LawfulBCmp.isLE_iff_le, Std.LawfulLECmp.isGE_iff_ge]
  · rw [Bool.and_eq_true, Ordering.isLT_iff_eq_lt, Ordering.isGT_iff_eq_gt, compare_lt_iff_lt,
      compare_gt_iff_gt]

/-! ## Grids -/

/-- The distance between the midpoints around a magnitude. -/
def width (m : Nat) : ℚ := highMidpoint m - lowMidpoint m

/-- A magnitude as a value. -/
def valueOf (m : Nat) : ℚ := (unitsOf m : ℚ) / one

theorem valueOf_lt_highMidpoint (m : Nat) : valueOf m < highMidpoint m := by
  have hlt : (unitsOf m : ℚ) < unitsOf (m + 1) :=
    Nat.cast_lt.2 (unitsOf_strictMono (Nat.lt_succ_self m))
  have hone : (0 : ℚ) < one := Nat.cast_pos.2 one_pos
  rw [valueOf, highMidpoint, div_lt_div_iff₀ hone two_one_pos]
  nlinarith

theorem lowMidpoint_lt_valueOf {m : Nat} (h : 0 < m) : lowMidpoint m < valueOf m := by
  have hlt : (unitsOf (m - 1) : ℚ) < unitsOf m :=
    Nat.cast_lt.2 (unitsOf_strictMono (Nat.sub_lt h Nat.one_pos))
  have hone : (0 : ℚ) < one := Nat.cast_pos.2 one_pos
  rw [valueOf, lowMidpoint, div_lt_div_iff₀ two_one_pos hone]
  nlinarith

/-- Whole steps of a grid leave less than one step over. -/
theorem stepsBelow_spec (num : Nat) {den : Nat} (hden : 0 < den) (exponent : Int) :
    (stepsBelow num den exponent : ℚ) * 10 ^ exponent ≤ (num : ℚ) / den ∧
      (num : ℚ) / den < (stepsBelow num den exponent + 1) * 10 ^ exponent := by
  have hq : (0 : ℚ) < den := Nat.cast_pos.2 hden
  rw [le_div_iff₀ hq, div_lt_iff₀ hq]
  unfold stepsBelow
  split
  · next hle =>
    obtain ⟨n, rfl⟩ := Int.eq_ofNat_of_zero_le hle
    have hpos : 0 < den * 10 ^ n := Nat.mul_pos hden (Nat.pow_pos (by decide))
    have hlow := Nat.div_mul_le_self num (den * 10 ^ n)
    have hhigh := Nat.lt_div_mul_add hpos (a := num)
    rw [Int.toNat_natCast, Nat.pow_eq, zpow_natCast]
    generalize num / (den * 10 ^ n) = q at hlow hhigh ⊢
    constructor
    · calc (q : ℚ) * 10 ^ n * den = ((q * (den * 10 ^ n) : Nat) : ℚ) := by push_cast; ring
        _ ≤ num := Nat.cast_le.2 hlow
    · calc (num : ℚ) < ((q * (den * 10 ^ n) + den * 10 ^ n : Nat) : ℚ) := Nat.cast_lt.2 hhigh
        _ = (q + 1) * 10 ^ n * den := by push_cast; ring
  · next hlt =>
    obtain ⟨n, rfl⟩ : ∃ n : Nat, exponent = -(n : Int) := ⟨exponent.natAbs, by omega⟩
    have hpow : (0 : ℚ) < 10 ^ n := by positivity
    have hlow := Nat.div_mul_le_self (num * 10 ^ n) den
    have hhigh := Nat.lt_div_mul_add hden (a := num * 10 ^ n)
    rw [neg_neg, Int.toNat_natCast, Nat.pow_eq, zpow_neg, zpow_natCast]
    generalize num * 10 ^ n / den = q at hlow hhigh ⊢
    rw [mul_right_comm, mul_right_comm (c := (den : ℚ)), mul_inv_le_iff₀ hpow, lt_mul_inv_iff₀ hpow]
    constructor
    · exact_mod_cast hlow
    · calc (num : ℚ) * 10 ^ n = ((num * 10 ^ n : Nat) : ℚ) := by push_cast; rfl
        _ < ((q * den + den : Nat) : ℚ) := Nat.cast_lt.2 hhigh
        _ = (q + 1) * den := by push_cast; ring

/-- A fraction is at least the power of ten at its leading digit. -/
theorem zpow_leadingExponent_le {num den : Nat} (hnum : 0 < num) (hden : 0 < den) :
    (10 : ℚ) ^ leadingExponent num den ≤ (num : ℚ) / den := by
  have hq : (0 : ℚ) < den := Nat.cast_pos.2 hden
  have hlong : ∀ n, 0 < (Nat.toDigits 10 n).length := fun n =>
    List.length_pos_of_ne_nil Nat.toDigits_ne_nil
  rw [le_div_iff₀ hq]
  unfold leadingExponent Text.decimalDigits
  split
  · next hle =>
    obtain ⟨k, hk⟩ := Nat.exists_eq_succ_of_ne_zero (hlong (num / den)).ne'
    have hwhole : 10 ^ k ≤ num / den := by
      rcases Nat.eq_zero_or_pos k with rfl | hpos
      · exact Nat.div_pos hle hden
      · by_contra hlt
        have := (Nat.length_toDigits_le_iff (by decide) hpos).2 (Nat.not_le.1 hlt)
        omega
    rw [hk, Nat.cast_succ, add_sub_cancel_right, zpow_natCast]
    exact_mod_cast (Nat.le_div_iff_mul_le hden).1 hwhole
  · next hlt =>
    have hbound := (Nat.length_toDigits_le_iff (b := 10) (by decide)
      (hlong ((den + num - 1) / num - 1))).1 le_rfl
    have hpow : (0 : ℚ) < 10 ^ (Nat.toDigits 10 ((den + num - 1) / num - 1)).length := by positivity
    rw [zpow_neg, zpow_natCast, inv_mul_le_iff₀ hpow]
    generalize (Nat.toDigits 10 ((den + num - 1) / num - 1)).length = k at hbound hpow ⊢
    have hceil : (den + num - 1) / num < 10 ^ k + 1 := by omega
    rw [Nat.div_lt_iff_lt_mul hnum, Nat.succ_mul] at hceil
    have hle : den ≤ 10 ^ k * num := by omega
    exact_mod_cast hle

/-- The nearer of two grid points is one of the two. -/
theorem nearerStep_cases (tie : Tie) (num den below : Nat) (exponent : Int) :
    nearerStep tie num den below exponent = below ∨
      nearerStep tie num den below exponent = below + 1 := by
  unfold nearerStep
  split
  · exact .inl rfl
  · exact .inr rfl
  · cases tie with
    | up => exact .inr rfl
    | toEven =>
      rcases Nat.mod_two_eq_zero_or_one below with heven | hodd
      · exact .inl (by simp only [heven, Nat.add_zero])
      · exact .inr (by simp only [hodd])

/-- What is written on a grid rounds to the number. -/
theorem near_of_onGrid? {tie : Tie} {m : Nat} {exponent : Int} {digits : Nat}
    (h : onGrid? tie m exponent = some digits) : Near m (Decimal.value ⟨digits, exponent⟩) := by
  simp only [onGrid?] at h
  split at h
  · next hbelow habove =>
    obtain rfl := Option.some.inj h
    rcases nearerStep_cases tie (unitsOf m) one (stepsBelow (unitsOf m) one exponent) exponent with
      heq | heq
    · rw [heq]
      exact (roundsTo_iff ..).1 hbelow
    · rw [heq]
      exact (roundsTo_iff ..).1 habove
  · next hbelow _ =>
    obtain rfl := Option.some.inj h
    exact (roundsTo_iff ..).1 hbelow
  · next _ habove =>
    obtain rfl := Option.some.inj h
    exact (roundsTo_iff ..).1 habove
  · cases h

/-- A grid finer than the distance of the midpoints has a point between them, next to the number. -/
theorem onGrid?_ne_none (tie : Tie) {m : Nat} (hm : 0 < m) {exponent : Int}
    (h : (10 : ℚ) ^ exponent < width m) : onGrid? tie m exponent ≠ none := by
  obtain ⟨hbelow, habove⟩ := stepsBelow_spec (unitsOf m) one_pos exponent
  simp only [onGrid?]
  generalize stepsBelow (unitsOf m) one exponent = below at hbelow habove
  rw [← valueOf] at hbelow habove
  have hlow := lowMidpoint_lt_valueOf hm
  have hhigh := valueOf_lt_highMidpoint m
  have hone : roundsTo m below exponent = true ∨ roundsTo m (below + 1) exponent = true := by
    by_cases hin : lowMidpoint m < below * 10 ^ exponent
    · exact .inl ((roundsTo_iff ..).2 (.of_between hin (hbelow.trans_lt hhigh)))
    · refine .inr ((roundsTo_iff ..).2 (.of_between ?_ ?_))
      · rw [Decimal.value, Nat.cast_succ]
        exact hlow.trans habove
      · rw [Decimal.value, Nat.cast_succ, add_one_mul]
        rw [width] at h
        linarith
  split
  · exact Option.some_ne_none _
  · exact Option.some_ne_none _
  · exact Option.some_ne_none _
  · next hnot hnext =>
    rw [hnot, hnext] at hone
    simp at hone

/-- The search ends on a decimal that rounds to the number, if its finest grid is fine enough. -/
theorem near_firstGrid (tie : Tie) {m : Nat} (hm : 0 < m) (grids : Nat) {exponent : Int}
    (h : (10 : ℚ) ^ (exponent - grids) < width m) :
    Near m (firstGrid tie m (grids + 1) exponent).value := by
  induction grids generalizing exponent with
  | zero =>
    rw [firstGrid]
    split
    · next hsome => exact near_of_onGrid? hsome
    · next hnone =>
      rw [Nat.cast_zero, sub_zero] at h
      exact absurd hnone (onGrid?_ne_none tie hm h)
  | succ grids ih =>
    rw [firstGrid]
    split
    · next hsome => exact near_of_onGrid? hsome
    · refine ih ?_
      rwa [sub_sub, add_comm, ← Nat.cast_succ]

/-- The midpoints around a number are more than `10^(-16)` of it apart. In the middle of a binade
the number has fewer than `2⁵³` steps; where one opens, the lower step is only half, but then
the number has `2⁵²` steps. -/
theorem valueOf_lt_width {m : Nat} (hm : 0 < m) : valueOf m < 10 ^ 16 * width m := by
  obtain ⟨k, rfl⟩ := Nat.exists_eq_succ_of_ne_zero hm.ne'
  have hunits : 2 * unitsOf (k + 1) < 10 ^ 16 * (stepOf k + stepOf (k + 1)) := by
    have hpos := stepOf_pos k
    have hlt := unitsOf_lt (k + 1)
    have hbinade : binade = 4503599627370496 := rfl
    rcases unitsOf_succ_cases k with ⟨hstep, -⟩ | ⟨hstep, -, hopens⟩
    · rw [hstep, hbinade] at hlt
      omega
    · rw [hopens, hstep, hbinade]
      omega
  have hwidth : width (k + 1) = ((stepOf k : ℚ) + stepOf (k + 1)) / (2 * one) := by
    rw [width, highMidpoint, lowMidpoint, ← sub_div, Nat.add_sub_cancel, unitsOf_succ (k + 1),
      unitsOf_succ k]
    push_cast
    ring
  have hone : (0 : ℚ) < one := Nat.cast_pos.2 one_pos
  rw [hwidth, valueOf, ← mul_div_assoc, div_lt_div_iff₀ hone two_one_pos]
  have hcast : (2 : ℚ) * unitsOf (k + 1) < 10 ^ 16 * (stepOf k + stepOf (k + 1)) := by
    exact_mod_cast hunits
  calc (unitsOf (k + 1) : ℚ) * (2 * one) = 2 * unitsOf (k + 1) * one := by ring
    _ < 10 ^ 16 * (stepOf k + stepOf (k + 1)) * one := mul_lt_mul_of_pos_right hcast hone

/-- **The fewest digits round to the number.** Seventeen of them always do. -/
theorem near_shortest (tie : Tie) {m : Nat} (hm : 0 < m) : Near m (shortest tie m).value := by
  have hunits : 0 < unitsOf m := Nat.lt_of_le_of_lt (Nat.zero_le _) (unitsOf_strictMono hm)
  refine near_firstGrid tie hm 16 ?_
  have hlead := zpow_leadingExponent_le hunits one_pos
  have hten : (0 : ℚ) < 10 ^ 16 := by positivity
  rw [zpow_sub₀ (by norm_num), Nat.cast_ofNat, zpow_ofNat, div_lt_iff₀ hten, mul_comm]
  exact hlead.trans_lt (valueOf_lt_width hm)

end Binary64

end NestedQuery
