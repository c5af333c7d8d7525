import Mathlib
import NestedQuery.Number.Basic
import NestedQuery.Proofs.Number.Rounding
import NestedQuery.Proofs.Text.Pieces
/-!
# Laid out numbers read back

A number that is laid out is read back by its point and its exponent,
whichever of the two it has, and gives the value of the digits that were
laid out (`Layout.near_readBody`). That value rounds to one magnitude
only, and the sign stands in front, so no two numbers are written alike
(`Layout.write_inj`). In data a double-precision number always has a
point or an exponent, which tells it from an integer
(`Number.text_inj`).
-/

namespace NestedQuery

namespace Layout

/-! ## Digits -/

/-- The number that digits stand for. -/
def natOf (digits : List Char) : Nat := Nat.ofDigitChars 10 digits 0

theorem ofDigitChars_eq (digits : List Char) (start : Nat) :
    Nat.ofDigitChars 10 digits start = start * 10 ^ digits.length + natOf digits := by
  induction digits generalizing start with
  | nil => simp [natOf]
  | cons c rest ih =>
    rw [natOf, Nat.ofDigitChars_cons, Nat.ofDigitChars_cons, ih, ih (10 * 0 + _), List.length_cons]
    ring

theorem natOf_append (front back : List Char) :
    natOf (front ++ back) = natOf front * 10 ^ back.length + natOf back := by
  rw [natOf, Nat.ofDigitChars_append, ofDigitChars_eq]
  rfl

theorem natOf_zeros (n : Nat) : natOf (List.replicate n '0') = 0 := by
  induction n with
  | zero => rfl
  | succ n ih =>
    rw [List.replicate_succ, natOf, Nat.ofDigitChars_cons]
    exact ih

theorem natOf_decimalDigits (n : Nat) : natOf (Text.decimalDigits n) = n :=
  Nat.ofDigitChars_toDigits (by decide) (by decide)

theorem isDigit_of_mem_decimalDigits {n : Nat} {c : Char} (h : c ∈ Text.decimalDigits n) :
    c.isDigit = true :=
  Nat.isDigit_of_mem_toDigits (by decide) (by decide) h

/-- Digits that a format may lay out: there is one at least, and nothing else. -/
structure Digits (cs : List Char) : Prop where
  ne_nil : cs ≠ []
  isDigit : ∀ c ∈ cs, c.isDigit = true

theorem digits_decimalDigits (n : Nat) : Digits (Text.decimalDigits n) :=
  ⟨Nat.toDigits_ne_nil, fun _ hmem => isDigit_of_mem_decimalDigits hmem⟩

/-- The value of digits of which the first has an exponent. -/
def valueAt (digits : List Char) (leading : Int) : ℚ :=
  natOf digits * (10 : ℚ) ^ (leading + 1 - digits.length)

/-- Of digits that reach behind the point, some are places. -/
theorem valueAt_of_places {digits : List Char} {leading : Int} {places : Nat}
    (h : leading + 1 - digits.length = -(places : Int)) :
    valueAt digits leading = natOf digits / 10 ^ places := by
  rw [valueAt, h, zpow_neg, zpow_natCast, div_eq_mul_inv]

/-- What is cut from the end of digits are zeros. -/
theorem exists_zeros (cs : List Char) :
    ∃ zeros, cs = (cs.reverse.dropWhile (· = '0')).reverse ++ List.replicate zeros '0' := by
  obtain ⟨zeros, hzeros⟩ : ∃ n, cs.reverse.takeWhile (· = '0') = List.replicate n '0' :=
    ⟨_, List.eq_replicate_of_mem fun c hc => by simpa using List.mem_takeWhile_imp hc⟩
  refine ⟨zeros, ?_⟩
  calc cs = (cs.reverse.takeWhile (· = '0') ++ cs.reverse.dropWhile (· = '0')).reverse := by
        rw [List.takeWhile_append_dropWhile, List.reverse_reverse]
    _ = (cs.reverse.dropWhile (· = '0')).reverse ++ (cs.reverse.takeWhile (· = '0')).reverse :=
        List.reverse_append
    _ = _ := by rw [hzeros, List.reverse_replicate]

/-- Trailing zeros are not significant. -/
theorem significant_spec (d : Decimal) :
    Digits (significant d).1 ∧ valueAt (significant d).1 (significant d).2 = d.value := by
  obtain ⟨zeros, hall⟩ := exists_zeros (Text.decimalDigits d.digits)
  have hvalue := natOf_decimalDigits d.digits
  have hdigits := (digits_decimalDigits d.digits).isDigit
  simp only [significant]
  generalize ((Text.decimalDigits d.digits).reverse.dropWhile (· = '0')).reverse = kept at *
  generalize Text.decimalDigits d.digits = all at *
  subst hall
  rw [natOf_append, natOf_zeros, List.length_replicate, Nat.add_zero] at hvalue
  split
  · have hzero : d.digits = 0 := by
      rw [← hvalue]
      exact Nat.zero_mul _
    refine ⟨⟨List.cons_ne_nil _ _, fun c hc => ?_⟩, ?_⟩
    · rw [List.mem_singleton.1 hc]
      rfl
    · rw [Decimal.value, hzero, Nat.cast_zero, zero_mul]
      exact zero_mul _
  · next hne =>
    refine ⟨⟨fun hnil => hne hnil, fun c hc => hdigits c (List.mem_append_left _ hc)⟩, ?_⟩
    have hexponent : d.exponent + ((kept ++ List.replicate zeros '0').length : Int) - 1 + 1 -
        (kept.length : Int) = (zeros : Int) + d.exponent := by
      rw [List.length_append, List.length_replicate]
      push_cast
      ring
    rw [Decimal.value, valueAt, hexponent, zpow_add₀ (by norm_num), zpow_natCast, ← mul_assoc,
      ← hvalue]
    push_cast
    rfl

/-! ## Reading back -/

/-- The value of digits around a point. -/
def readPlain (cs : List Char) : ℚ :=
  natOf (cs.takeWhile (· ≠ '.') ++ (cs.dropWhile (· ≠ '.')).drop 1) /
    10 ^ ((cs.dropWhile (· ≠ '.')).drop 1).length

/-- The exponent behind its letter; nothing stands for none. -/
def readExponent : List Char → Int
  | [] => 0
  | sign :: digits => if sign = '-' then -(natOf digits : Int) else natOf digits

/-- The value of a number without its sign. -/
def readBody (cs : List Char) : ℚ :=
  readPlain (cs.takeWhile (· ≠ 'e')) * 10 ^ readExponent ((cs.dropWhile (· ≠ 'e')).drop 1)

/-- Text without a mark is all that stands before one. -/
theorem takeWhile_ne_self {mark : Char} {cs : List Char} (h : mark ∉ cs) :
    cs.takeWhile (· ≠ mark) = cs :=
  List.takeWhile_eq_self_iff.2 fun c hc => by simpa using fun heq : c = mark => h (heq ▸ hc)

theorem dropWhile_ne_self {mark : Char} {cs : List Char} (h : mark ∉ cs) :
    cs.dropWhile (· ≠ mark) = [] :=
  List.dropWhile_eq_nil_iff.2 fun c hc => by simpa using fun heq : c = mark => h (heq ▸ hc)

theorem readPlain_point {whole : List Char} (h : '.' ∉ whole) (fraction : List Char) :
    readPlain (whole ++ '.' :: fraction) = natOf (whole ++ fraction) / 10 ^ fraction.length := by
  rw [readPlain, Text.takeWhile_ne_append h, Text.dropWhile_ne_append h]
  rfl

theorem readPlain_whole {whole : List Char} (h : '.' ∉ whole) : readPlain whole = natOf whole := by
  rw [readPlain, takeWhile_ne_self h, dropWhile_ne_self h]
  simp

theorem readBody_plain {cs : List Char} (h : 'e' ∉ cs) : readBody cs = readPlain cs := by
  rw [readBody, takeWhile_ne_self h, dropWhile_ne_self h]
  simp [readExponent]

/-- A character that is no digit is none of several digits. -/
theorem notMem_digits {c : Char} (hc : c.isDigit = false) {digits : List Char}
    (h : ∀ d ∈ digits, d.isDigit = true) : c ∉ digits := fun hmem => by
  rw [h c hmem] at hc
  cases hc

theorem natOf_append_zeros (digits : List Char) (n : Nat) :
    natOf (digits ++ List.replicate n '0') = natOf digits * 10 ^ n := by
  rw [natOf_append, natOf_zeros, List.length_replicate, Nat.add_zero]

theorem natOf_zeros_append (n : Nat) (digits : List Char) :
    natOf (List.replicate n '0' ++ digits) = natOf digits := by
  rw [natOf_append, natOf_zeros, Nat.zero_mul, Nat.zero_add]

variable {digits : List Char}

/-- Zeros between the point and the digits are places. -/
theorem readPlain_places (n : Nat) (digits : List Char) :
    readPlain ('0' :: '.' :: (List.replicate n '0' ++ digits)) =
      natOf digits / 10 ^ (n + digits.length) := by
  have hwhole : '.' ∉ ['0'] := by decide
  have hone : ['0'] ++ (List.replicate n '0' ++ digits) = List.replicate (n + 1) '0' ++ digits := rfl
  refine (readPlain_point hwhole (List.replicate n '0' ++ digits)).trans ?_
  rw [hone, natOf_zeros_append, List.length_append, List.length_replicate]

/-- Zeros behind the digits are powers of ten, and one behind the point is nothing. -/
theorem readPlain_padded (pointZero : Bool) (h : Digits digits) (n : Nat) :
    readPlain (digits ++ List.replicate n '0' ++ (if pointZero then ['.', '0'] else [])) =
      natOf digits * 10 ^ n := by
  have hpoint : '.' ∉ digits ++ List.replicate n '0' := by
    rw [List.mem_append, not_or]
    exact ⟨notMem_digits rfl h.isDigit, fun hmem => absurd (List.eq_of_mem_replicate hmem) (by decide)⟩
  cases pointZero with
  | true =>
    have hzeros : List.replicate n '0' ++ ['0'] = List.replicate (n + 1) '0' :=
      List.replicate_succ'.symm
    rw [if_pos rfl, readPlain_point hpoint, List.append_assoc, hzeros, natOf_append_zeros]
    push_cast [List.length_singleton]
    rw [pow_succ]
    ring
  | false =>
    rw [if_neg Bool.false_ne_true, List.append_nil, readPlain_whole hpoint, natOf_append_zeros]
    push_cast
    rfl

/-- Digits written out in place keep their value. -/
theorem readPlain_plainText (pointZero : Bool) (h : Digits digits) (leading : Int) :
    readPlain (plainText pointZero digits leading) = valueAt digits leading := by
  unfold plainText
  split
  · rw [readPlain_places]
    exact (valueAt_of_places (by omega)).symm
  · next hpos =>
    obtain ⟨n, rfl⟩ := Int.eq_ofNat_of_zero_le (Int.not_lt.1 hpos)
    simp only [Int.toNat_natCast]
    split
    · next hshort =>
      rw [readPlain_padded pointZero h, valueAt,
        show (n : Int) + 1 - digits.length = ((n + 1 - digits.length : Nat) : Int) by omega,
        zpow_natCast]
    · have hfront : '.' ∉ digits.take (n + 1) := fun hmem =>
        notMem_digits rfl h.isDigit (List.mem_of_mem_take hmem)
      rw [readPlain_point hfront, List.take_append_drop, List.length_drop]
      exact (valueAt_of_places (by omega)).symm

/-- The digits in front of an exponent: one, and behind a point the others. -/
def mantissa : List Char → List Char
  | [] => []
  | [first] => [first]
  | first :: rest => first :: '.' :: rest

theorem exponentText_eq (digits : List Char) (leading : Int) :
    exponentText digits leading = mantissa digits ++ 'e' :: (if leading < 0 then '-' else '+') ::
      Text.decimalDigits leading.natAbs := by
  unfold exponentText mantissa
  rfl

theorem readPlain_mantissa (h : Digits digits) : readPlain (mantissa digits) = valueAt digits 0 := by
  have hpoint := notMem_digits (c := '.') rfl h.isDigit
  match digits, h, hpoint with
  | [], h, _ => exact absurd rfl h.ne_nil
  | [first], _, hpoint =>
    rw [mantissa, readPlain_whole hpoint, valueAt]
    simp
  | first :: second :: rest, _, hpoint =>
    have hfirst : '.' ∉ [first] := fun hmem =>
      hpoint (List.mem_cons.2 (.inl (List.mem_singleton.1 hmem)))
    have htext := readPlain_point hfirst (second :: rest)
    refine htext.trans ?_
    exact (valueAt_of_places (by simp)).symm

/-- Digits written with an exponent keep their value. -/
theorem readBody_exponentText (h : Digits digits) (leading : Int) :
    readBody (exponentText digits leading) = valueAt digits leading := by
  have hletter : 'e' ∉ mantissa digits := by
    have hdigits := notMem_digits (c := 'e') rfl h.isDigit
    match digits with
    | [] => exact hdigits
    | [first] => exact hdigits
    | first :: second :: rest =>
      simp only [mantissa, List.mem_cons, not_or] at hdigits ⊢
      exact ⟨hdigits.1, by decide, hdigits.2⟩
  have hexponent : readExponent ((if leading < 0 then '-' else '+') ::
      Text.decimalDigits leading.natAbs) = leading := by
    rw [readExponent, natOf_decimalDigits]
    split_ifs with hneg hminus <;> first | omega | simp_all
  rw [exponentText_eq, readBody, Text.takeWhile_ne_append hletter, Text.dropWhile_ne_append hletter,
    List.drop_one, List.tail_cons, hexponent, readPlain_mantissa h, valueAt, valueAt, mul_assoc,
    ← zpow_add₀ (by norm_num)]
  congr 2
  ring

/-! ## Written numbers -/

/-- The digits that are laid out for a number, and the exponent of the first of them. -/
def digitsOf (layout : Layout) (x : Binary64) : List Char × Int :=
  if x.magnitude = 0 then (['0'], 0) else significant (Binary64.shortest layout.tie x.magnitude)

/-- Whether digits are written out in place. -/
def isPlain (layout : Layout) (leading : Int) : Bool :=
  match layout.plain with
  | none => true
  | some (least, greatest) => decide (least ≤ leading ∧ leading ≤ greatest)

/-- The text of a number without its sign. -/
def bodyOf (layout : Layout) (x : Binary64) : List Char :=
  if layout.isPlain (layout.digitsOf x).2 then
    plainText layout.pointZero (layout.digitsOf x).1 (layout.digitsOf x).2
  else exponentText (layout.digitsOf x).1 (layout.digitsOf x).2

theorem write_eq (layout : Layout) (x : Binary64) :
    layout.write x =
      String.ofList (if x.negative then '-' :: layout.bodyOf x else layout.bodyOf x) := rfl

/-- The digits that are laid out round to the number. -/
theorem digitsOf_spec (layout : Layout) (x : Binary64) :
    Digits (layout.digitsOf x).1 ∧
      Binary64.Near x.magnitude (valueAt (layout.digitsOf x).1 (layout.digitsOf x).2) := by
  unfold digitsOf
  split
  · next hzero =>
    refine ⟨⟨List.cons_ne_nil _ _, fun c hc => ?_⟩, ?_⟩
    · rw [List.mem_singleton.1 hc]
      rfl
    · rw [hzero, show valueAt ['0'] 0 = 0 from zero_mul _]
      exact Binary64.near_zero
  · next hne =>
    obtain ⟨hdigits, hvalue⟩ := significant_spec (Binary64.shortest layout.tie x.magnitude)
    refine ⟨hdigits, ?_⟩
    rw [hvalue]
    exact Binary64.near_shortest layout.tie (Nat.pos_of_ne_zero hne)

/-- Digits and a point are no letter. -/
theorem notMem_plainText (pointZero : Bool) (h : Digits digits) (leading : Int) :
    'e' ∉ plainText pointZero digits leading := by
  have hdigits : 'e' ∉ digits := notMem_digits rfl h.isDigit
  unfold plainText
  split
  · simp [hdigits]
  · simp only
    split
    · cases pointZero <;> simp [hdigits]
    · simp only [List.mem_append, List.mem_cons, not_or]
      exact ⟨fun hc => hdigits (List.mem_of_mem_take hc), by decide,
        fun hc => hdigits (List.mem_of_mem_drop hc)⟩

/-- **A number that is laid out reads back as a value that rounds to it.** -/
theorem near_readBody (layout : Layout) (x : Binary64) :
    Binary64.Near x.magnitude (readBody (layout.bodyOf x)) := by
  obtain ⟨hdigits, hnear⟩ := layout.digitsOf_spec x
  unfold bodyOf
  split
  · rwa [readBody_plain (notMem_plainText _ hdigits _), readPlain_plainText _ hdigits]
  · rwa [readBody_exponentText hdigits]

/-- What is laid out starts with a digit. -/
theorem exists_bodyOf_eq_cons (layout : Layout) (x : Binary64) :
    ∃ c rest, layout.bodyOf x = c :: rest ∧ c.isDigit = true := by
  obtain ⟨⟨hne, hdigits⟩, -⟩ := layout.digitsOf_spec x
  unfold bodyOf
  generalize (layout.digitsOf x).1 = digits at hne hdigits
  obtain ⟨c, rest, rfl⟩ := List.exists_cons_of_ne_nil hne
  have hc := hdigits c List.mem_cons_self
  split
  · unfold plainText
    split
    · exact ⟨_, _, rfl, rfl⟩
    · simp only
      split
      · exact ⟨_, _, rfl, hc⟩
      · exact ⟨_, _, rfl, hc⟩
  · rw [exponentText_eq]
    cases rest with
    | nil => exact ⟨_, _, rfl, hc⟩
    | cons d rest => exact ⟨_, _, rfl, hc⟩

/-- **No two numbers are written alike.** -/
theorem write_inj (layout : Layout) {x y : Binary64} (h : layout.write x = layout.write y) :
    x = y := by
  obtain ⟨c, rest, hx, hc⟩ := layout.exists_bodyOf_eq_cons x
  obtain ⟨d, others, hy, hd⟩ := layout.exists_bodyOf_eq_cons y
  have hsign : ∀ {e : Char}, e.isDigit = true → e ≠ '-' := by
    rintro e he rfl
    cases he
  have hboth : x.negative = y.negative ∧ layout.bodyOf x = layout.bodyOf y := by
    rw [write_eq, write_eq] at h
    have hchars := congrArg String.toList h
    rw [String.toList_ofList, String.toList_ofList] at hchars
    cases hp : x.negative <;> cases hq : y.negative <;>
      simp only [hp, hq, if_true, Bool.false_eq_true, if_false] at hchars
    case false.false => exact ⟨rfl, hchars⟩
    case false.true =>
      rw [hx] at hchars
      exact absurd (List.cons.inj hchars).1 (hsign hc)
    case true.false =>
      rw [hy] at hchars
      exact absurd (List.cons.inj hchars).1.symm (hsign hd)
    case true.true => exact ⟨rfl, (List.cons.inj hchars).2⟩
  have hmagnitude : x.magnitude = y.magnitude := by
    have hnear := layout.near_readBody x
    rw [hboth.2] at hnear
    exact hnear.unique (layout.near_readBody y)
  cases x
  cases y
  simp_all

/-- The characters of a number that is laid out. -/
def isMark (c : Char) : Bool := c.isDigit || c = '.' || c = 'e' || c = '+' || c = '-'

theorem isMark_of_isDigit {c : Char} (h : c.isDigit = true) : isMark c = true := by
  simp [isMark, h]

theorem isMark_of_mem_plainText (pointZero : Bool) (h : Digits digits) (leading : Int) :
    ∀ c ∈ plainText pointZero digits leading, isMark c = true := by
  have hdigits : ∀ c ∈ digits, isMark c = true := fun c hc => isMark_of_isDigit (h.isDigit c hc)
  have hzeros : ∀ n, ∀ c ∈ List.replicate n '0', isMark c = true := fun n c hc => by
    rw [List.eq_of_mem_replicate hc]
    rfl
  have hpoint : ∀ c ∈ (if pointZero then ['.', '0'] else []), isMark c = true := by
    cases pointZero <;> simp [isMark]
  unfold plainText
  split
  · simp only [List.forall_mem_cons, List.forall_mem_append]
    exact ⟨rfl, rfl, hzeros _, hdigits⟩
  · simp only
    split
    · simp only [List.forall_mem_append]
      exact ⟨⟨hdigits, hzeros _⟩, hpoint⟩
    · simp only [List.forall_mem_append, List.forall_mem_cons]
      exact ⟨fun c hc => hdigits c (List.mem_of_mem_take hc), rfl,
        fun c hc => hdigits c (List.mem_of_mem_drop hc)⟩

theorem isMark_of_mem_exponentText (h : Digits digits) (leading : Int) :
    ∀ c ∈ exponentText digits leading, isMark c = true := by
  have hdigits : ∀ c ∈ digits, isMark c = true := fun c hc => isMark_of_isDigit (h.isDigit c hc)
  have hmantissa : ∀ c ∈ mantissa digits, isMark c = true := by
    match digits, hdigits with
    | [], hdigits => exact hdigits
    | [first], hdigits => exact hdigits
    | first :: second :: rest, hdigits =>
      simp only [mantissa, List.forall_mem_cons] at hdigits ⊢
      exact ⟨hdigits.1, rfl, hdigits.2⟩
  rw [exponentText_eq]
  simp only [List.forall_mem_append, List.forall_mem_cons]
  refine ⟨hmantissa, rfl, ?_, fun c hc => isMark_of_isDigit (isDigit_of_mem_decimalDigits hc)⟩
  split <;> rfl

theorem isMark_of_mem_bodyOf (layout : Layout) (x : Binary64) :
    ∀ c ∈ layout.bodyOf x, isMark c = true := by
  obtain ⟨hdigits, -⟩ := layout.digitsOf_spec x
  unfold bodyOf
  split
  · exact isMark_of_mem_plainText _ hdigits _
  · exact isMark_of_mem_exponentText hdigits _

theorem toList_write (layout : Layout) (x : Binary64) :
    (layout.write x).toList = if x.negative then '-' :: layout.bodyOf x else layout.bodyOf x := by
  rw [write_eq, String.toList_ofList]

/-- What is laid out with a point and a zero, or with an exponent, is no row of digits. -/
theorem exists_mem_bodyOf (layout : Layout) (hpoint : layout.pointZero = true) (x : Binary64) :
    ∃ c ∈ layout.bodyOf x, c.isDigit = false ∧ c ≠ '-' := by
  unfold bodyOf
  split
  · refine ⟨'.', ?_, rfl, by decide⟩
    rw [hpoint]
    unfold plainText
    split
    · simp
    · simp only
      split <;> simp
  · refine ⟨'e', ?_, rfl, by decide⟩
    rw [exponentText_eq]
    simp

end Layout

/-! ## Numbers of data -/

namespace Number

/-- The text of an integer: its digits, behind a sign if it is negative. -/
theorem toList_toString (n : Int) :
    (toString n).toList =
      if n < 0 then '-' :: Text.decimalDigits n.natAbs else Text.decimalDigits n.natAbs := by
  cases n with
  | ofNat k =>
    have hle : ¬Int.ofNat k < 0 := Int.not_lt.2 (Int.natCast_nonneg k)
    rw [if_neg hle]
    exact Nat.toList_repr
  | negSucc k =>
    rw [if_pos (Int.negSucc_lt_zero k)]
    show ("-" ++ (k + 1).repr).toList = _
    rw [String.toList_append, Nat.toList_repr]
    rfl

/-- The text of a number holds nothing but digits, points, signs and the letter of an exponent. -/
theorem isMark_of_mem_text (n : Number) : ∀ c ∈ n.text.toList, Layout.isMark c = true := by
  cases n with
  | int n =>
    have hdigits : ∀ c ∈ Text.decimalDigits n.natAbs, Layout.isMark c = true := fun c hc =>
      Layout.isMark_of_isDigit (Layout.isDigit_of_mem_decimalDigits hc)
    rw [text, toList_toString]
    split
    · exact List.forall_mem_cons.2 ⟨rfl, hdigits⟩
    · exact hdigits
  | float x =>
    rw [text, Layout.toList_write]
    split
    · exact List.forall_mem_cons.2 ⟨rfl, dataLayout.isMark_of_mem_bodyOf x⟩
    · exact dataLayout.isMark_of_mem_bodyOf x

/-- The text of a number starts with a digit or with a minus. -/
theorem exists_text_eq_cons (n : Number) :
    ∃ c rest, n.text.toList = c :: rest ∧ (c.isDigit = true ∨ c = '-') := by
  cases n with
  | int n =>
    rw [text, toList_toString]
    split
    · exact ⟨_, _, rfl, .inr rfl⟩
    · obtain ⟨hne, hdigits⟩ := Layout.digits_decimalDigits n.natAbs
      obtain ⟨c, rest, heq⟩ := List.exists_cons_of_ne_nil hne
      exact ⟨c, rest, heq, .inl (hdigits c (heq ▸ List.mem_cons_self))⟩
  | float x =>
    rw [text, Layout.toList_write]
    split
    · exact ⟨_, _, rfl, .inr rfl⟩
    · obtain ⟨c, rest, heq, hc⟩ := dataLayout.exists_bodyOf_eq_cons x
      exact ⟨c, rest, heq, .inl hc⟩

/-- An integer is not written as a double-precision number is. -/
theorem text_int_ne_float (n : Int) (x : Binary64) : (int n).text ≠ (float x).text := by
  intro h
  obtain ⟨c, hmem, hdigit, hminus⟩ := dataLayout.exists_mem_bodyOf rfl x
  have hfloat : c ∈ (float x).text.toList := by
    rw [text, Layout.toList_write]
    split
    · exact List.mem_cons_of_mem _ hmem
    · exact hmem
  rw [← h, text, toList_toString] at hfloat
  have hdigits : c ∉ Text.decimalDigits n.natAbs :=
    Layout.notMem_digits hdigit (Layout.digits_decimalDigits _).isDigit
  split at hfloat
  · exact (List.mem_cons.1 hfloat).elim hminus hdigits
  · exact hdigits hfloat

/-- **No two numbers of data are written alike.** -/
theorem text_inj {n m : Number} (h : n.text = m.text) : n = m := by
  cases n with
  | int a =>
    cases m with
    | int b => rw [Int.repr_injective h]
    | float y => exact absurd h (text_int_ne_float a y)
  | float x =>
    cases m with
    | int b => exact absurd h.symm (text_int_ne_float b x)
    | float y => rw [dataLayout.write_inj h]

end Number

end NestedQuery
