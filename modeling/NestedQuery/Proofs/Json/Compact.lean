import Mathlib
import NestedQuery.Json.Printer
import NestedQuery.Proofs.Number.Layout
/-!
# Compact text tells values apart

No two values have one compact text (`Json.compact_inj`): the order of
the keys, the kind of a number and the sign of a zero all show. The text
is read from the front. Its first character tells the kind of the value,
texts and numbers tell their own end, and the items of a list and the
fields of an object are parted by commas, so that what follows a value is
recovered with it (`Json.chars_append_inj`).
-/

namespace NestedQuery

namespace Json

/-! ## Escapes -/

/-- The value of a digit of base sixteen, in lower case. -/
def hexValue (c : Char) : Nat := if c.toNat < 'a'.toNat then c.toNat - '0'.toNat else c.toNat - 87

/-- Reads one character off a text inside quotes. -/
def unescape? : List Char → Option (Char × List Char)
  | '\\' :: 'u' :: _ :: _ :: high :: low :: rest =>
    some (Char.ofNat (16 * hexValue high + hexValue low), rest)
  | '\\' :: c :: rest => some ((Text.controlOfLetter? c).getD c, rest)
  | c :: rest => some (c, rest)
  | [] => none

theorem hexValue_hexChar : ∀ n < 32,
    16 * hexValue (hexChar (n / 16)) + hexValue (hexChar (n % 16)) = n := by
  decide

/-- What is read is what was written. -/
theorem unescape?_escapeChar (c : Char) (rest : List Char) :
    unescape? (escapeChar c ++ rest) = some (c, rest) := by
  unfold escapeChar
  split_ifs with hquote hback hbell hfeed hline hreturn htab hcontrol
  · subst hquote; rfl
  · subst hback; rfl
  · subst hbell; rfl
  · subst hfeed; rfl
  · subst hline; rfl
  · subst hreturn; rfl
  · subst htab; rfl
  · show some (Char.ofNat (16 * hexValue (hexChar (c.toNat / 16)) +
      hexValue (hexChar (c.toNat % 16))), rest) = _
    rw [hexValue_hexChar _ hcontrol, Char.ofNat_toNat]
  · unfold unescape?
    split
    · next heq => exact absurd (List.cons.inj heq).1 hback
    · next heq => exact absurd (List.cons.inj heq).1 hback
    · next heq =>
      obtain ⟨rfl, rfl⟩ := List.cons.inj heq
      rfl
    · next heq => cases heq

/-! ## The ends of texts and numbers -/

/-- Two lists that go on with all of one kind of characters and then with none are cut alike. -/
theorem append_inj_of_run {p : Char → Bool} {as bs rest others : List Char}
    (ha : ∀ c ∈ as, p c = true) (hb : ∀ c ∈ bs, p c = true)
    (hrest : ∀ c ∈ rest.head?, p c = false) (hothers : ∀ c ∈ others.head?, p c = false)
    (h : as ++ rest = bs ++ others) : as = bs ∧ rest = others := by
  have hrun : ∀ {front back : List Char}, (∀ c ∈ front, p c = true) →
      (∀ c ∈ back.head?, p c = false) → (front ++ back).takeWhile p = front := by
    intro front back hfront hback
    rw [List.takeWhile_append_of_pos hfront]
    cases back with
    | nil => simp
    | cons c more => simp [hback c rfl]
  have hfronts : as = bs := by rw [← hrun ha hrest, h, hrun hb hothers]
  subst hfronts
  exact ⟨rfl, List.append_cancel_left h⟩

/-- A quote is escaped, so that one that is not ends a text. -/
theorem escapeChar_append_ne (c : Char) (front back : List Char) :
    escapeChar c ++ front ≠ '"' :: back := by
  unfold escapeChar
  split_ifs with hquote
  all_goals
    intro heq
    have hhead := (List.cons.inj heq).1
    first
      | exact hquote hhead
      | exact absurd hhead (by decide)

/-- A text is read up to the quote that ends it. -/
theorem escape_append_inj {cs ds rest others : List Char}
    (h : escape cs ++ '"' :: rest = escape ds ++ '"' :: others) : cs = ds ∧ rest = others := by
  induction cs generalizing ds with
  | nil =>
    cases ds with
    | nil => exact ⟨rfl, (List.cons.inj h).2⟩
    | cons d ds =>
      rw [escape, escape, List.flatMap_nil, List.flatMap_cons, List.append_assoc] at h
      exact absurd h.symm (escapeChar_append_ne d _ _)
  | cons c cs ih =>
    cases ds with
    | nil =>
      rw [escape, escape, List.flatMap_nil, List.flatMap_cons, List.append_assoc] at h
      exact absurd h (escapeChar_append_ne c _ _)
    | cons d ds =>
      rw [escape, escape, List.flatMap_cons, List.flatMap_cons, List.append_assoc,
        List.append_assoc] at h
      have hread := unescape?_escapeChar c (escape cs ++ '"' :: rest)
      rw [escape, h, unescape?_escapeChar] at hread
      obtain ⟨rfl, htail⟩ := Prod.mk.inj (Option.some.inj hread)
      obtain ⟨rfl, hrest⟩ := ih htail.symm
      exact ⟨rfl, hrest⟩

/-! ## The characters of values -/

/-- The characters of a compact text. -/
def chars (value : Json) : List Char := value.compact.toList

/-- The characters behind the first item of a list. -/
def itemChars (items : List Json) : List Char := (compactItems items).toList

/-- The characters behind the first field of an object. -/
def fieldChars (fields : List (String × Json)) : List Char := (compactFields fields).toList

theorem chars_null : null.chars = ['n', 'u', 'l', 'l'] := rfl

theorem chars_true : (bool true).chars = ['t', 'r', 'u', 'e'] := rfl

theorem chars_false : (bool false).chars = ['f', 'a', 'l', 's', 'e'] := rfl

theorem chars_num (n : Number) : (num n).chars = n.text.toList := rfl

theorem toList_quoted (s : String) : (quoted s).toList = '"' :: (escape s.toList ++ ['"']) := by
  rw [quoted, String.toList_ofList]

theorem chars_str (s : String) : (str s).chars = '"' :: (escape s.toList ++ ['"']) :=
  toList_quoted s

theorem chars_arr_nil : (arr []).chars = ['[', ']'] := rfl

theorem chars_arr_cons (item : Json) (rest : List Json) :
    (arr (item :: rest)).chars = '[' :: (item.chars ++ itemChars rest) := by
  show ("[" ++ item.compact ++ compactItems rest).toList = _
  simp only [String.toList_append, List.append_assoc]
  rfl

theorem chars_obj_nil : (obj []).chars = ['\x7b', '\x7d'] := rfl

theorem chars_obj_cons (key : String) (value : Json) (rest : List (String × Json)) :
    (obj ((key, value) :: rest)).chars =
      '\x7b' :: '"' :: (escape key.toList ++ '"' :: ':' :: (value.chars ++ fieldChars rest)) := by
  show ("\x7b" ++ quoted key ++ ":" ++ value.compact ++ compactFields rest).toList = _
  simp only [String.toList_append, toList_quoted, List.append_assoc, List.cons_append]
  rfl

theorem itemChars_nil : itemChars [] = [']'] := rfl

theorem itemChars_cons (item : Json) (rest : List Json) :
    itemChars (item :: rest) = ',' :: (item.chars ++ itemChars rest) := by
  show ("," ++ item.compact ++ compactItems rest).toList = _
  simp only [String.toList_append, List.append_assoc]
  rfl

theorem fieldChars_nil : fieldChars [] = ['\x7d'] := rfl

theorem fieldChars_cons (key : String) (value : Json) (rest : List (String × Json)) :
    fieldChars ((key, value) :: rest) =
      ',' :: '"' :: (escape key.toList ++ '"' :: ':' :: (value.chars ++ fieldChars rest)) := by
  show ("," ++ quoted key ++ ":" ++ value.compact ++ compactFields rest).toList = _
  simp only [String.toList_append, toList_quoted, List.append_assoc, List.cons_append]
  rfl

/-! ## The kind of a value -/

/-- The kind of a value, as a character its text may start with. -/
def mark : Json → Char
  | null => 'n'
  | bool true => 't'
  | bool false => 'f'
  | num _ => '0'
  | str _ => '"'
  | arr _ => '['
  | obj _ => '\x7b'

/-- The kind that the first character of a text tells. -/
def markOf (c : Char) : Char := if c.isDigit || c = '-' then '0' else c

/-- The first character of a text tells the kind of the value. -/
theorem markOf_head (value : Json) : ∃ c rest, value.chars = c :: rest ∧ markOf c = value.mark := by
  match value with
  | null => exact ⟨_, _, chars_null, rfl⟩
  | bool true => exact ⟨_, _, chars_true, rfl⟩
  | bool false => exact ⟨_, _, chars_false, rfl⟩
  | num n =>
    obtain ⟨c, rest, heq, hc⟩ := n.exists_text_eq_cons
    refine ⟨c, rest, (chars_num n).trans heq, ?_⟩
    rw [markOf, if_pos]
    · rfl
    · simpa using hc
  | str s => exact ⟨_, _, chars_str s, rfl⟩
  | arr [] => exact ⟨_, _, chars_arr_nil, rfl⟩
  | arr (item :: rest) => exact ⟨_, _, chars_arr_cons item rest, rfl⟩
  | obj [] => exact ⟨_, _, chars_obj_nil, rfl⟩
  | obj ((key, value) :: rest) => exact ⟨_, _, chars_obj_cons key value rest, rfl⟩

theorem mark_eq {v w : Json} {rest others : List Char} (h : v.chars ++ rest = w.chars ++ others) :
    v.mark = w.mark := by
  obtain ⟨c, cs, hv, hc⟩ := v.markOf_head
  obtain ⟨d, ds, hw, hd⟩ := w.markOf_head
  rw [hv, hw] at h
  rw [← hc, ← hd, (List.cons.inj h).1]

theorem eq_null_of_mark {w : Json} (h : 'n' = w.mark) : w = null := by
  cases w with
  | null => rfl
  | bool b => cases b <;> cases h
  | _ => cases h

theorem eq_bool_of_mark {b : Bool} {w : Json} (h : (bool b).mark = w.mark) : w = bool b := by
  cases w with
  | bool c => cases b <;> cases c <;> first | rfl | cases h
  | _ => cases b <;> cases h

theorem exists_num_of_mark {w : Json} (h : '0' = w.mark) : ∃ n, w = num n := by
  cases w with
  | num n => exact ⟨n, rfl⟩
  | bool b => cases b <;> cases h
  | _ => cases h

theorem exists_str_of_mark {w : Json} (h : '"' = w.mark) : ∃ s, w = str s := by
  cases w with
  | str s => exact ⟨s, rfl⟩
  | bool b => cases b <;> cases h
  | _ => cases h

theorem exists_arr_of_mark {w : Json} (h : '[' = w.mark) : ∃ items, w = arr items := by
  cases w with
  | arr items => exact ⟨items, rfl⟩
  | bool b => cases b <;> cases h
  | _ => cases h

theorem exists_obj_of_mark {w : Json} (h : '\x7b' = w.mark) : ∃ fields, w = obj fields := by
  cases w with
  | obj fields => exact ⟨fields, rfl⟩
  | bool b => cases b <;> cases h
  | _ => cases h

/-- No value starts with a bracket that closes. -/
theorem chars_append_ne (value : Json) (front back : List Char) :
    value.chars ++ front ≠ ']' :: back := by
  obtain ⟨c, cs, hvalue, hc⟩ := value.markOf_head
  rw [hvalue]
  intro heq
  obtain rfl := (List.cons.inj heq).1
  have hmark : value.mark = ']' := hc.symm
  cases value with
  | bool b => cases b <;> cases hmark
  | _ => cases hmark

/-! ## Reading from the front -/

/-- A text that no number runs on into. -/
def Parts (rest : List Char) : Prop := ∀ c ∈ rest.head?, Layout.isMark c = false

theorem parts_itemChars (items : List Json) (rest : List Char) : Parts (itemChars items ++ rest) := by
  cases items with
  | nil =>
    rintro c ⟨⟩
    rfl
  | cons item items =>
    rw [itemChars_cons]
    rintro c ⟨⟩
    rfl

theorem parts_fieldChars (fields : List (String × Json)) (rest : List Char) :
    Parts (fieldChars fields ++ rest) := by
  cases fields with
  | nil =>
    rintro c ⟨⟩
    rfl
  | cons field fields =>
    obtain ⟨key, value⟩ := field
    rw [fieldChars_cons]
    rintro c ⟨⟩
    rfl

theorem text_append_inj {n m : Number} {rest others : List Char} (hrest : Parts rest)
    (hothers : Parts others) (h : n.text.toList ++ rest = m.text.toList ++ others) :
    n = m ∧ rest = others := by
  obtain ⟨htext, htail⟩ :=
    append_inj_of_run n.isMark_of_mem_text m.isMark_of_mem_text hrest hothers h
  exact ⟨Number.text_inj (String.toList_inj.1 htext), htail⟩

/-- Lists that are read alike are read alike behind their opening brackets, as from an item on. -/
theorem itemChars_of_arr {items more : List Json} {rest others : List Char}
    (h : (arr items).chars ++ rest = (arr more).chars ++ others) :
    itemChars items ++ rest = itemChars more ++ others := by
  cases items with
  | nil =>
    cases more with
    | nil => exact congrArg _ (List.append_cancel_left h)
    | cons item more =>
      rw [chars_arr_nil, chars_arr_cons, List.cons_append, List.cons_append, List.cons_append,
        List.append_assoc] at h
      exact absurd (List.cons.inj h).2.symm (chars_append_ne item _ _)
  | cons item items =>
    cases more with
    | nil =>
      rw [chars_arr_nil, chars_arr_cons, List.cons_append, List.append_assoc] at h
      exact absurd (List.cons.inj h).2 (chars_append_ne item _ _)
    | cons other more =>
      rw [chars_arr_cons, chars_arr_cons] at h
      rw [itemChars_cons, itemChars_cons]
      exact congrArg _ (List.cons.inj h).2

theorem fieldChars_of_obj {fields more : List (String × Json)} {rest others : List Char}
    (h : (obj fields).chars ++ rest = (obj more).chars ++ others) :
    fieldChars fields ++ rest = fieldChars more ++ others := by
  cases fields with
  | nil =>
    cases more with
    | nil => exact congrArg _ (List.append_cancel_left h)
    | cons field more =>
      rw [chars_obj_nil, chars_obj_cons] at h
      exact absurd (List.cons.inj (List.cons.inj h).2).1 (by decide)
  | cons field fields =>
    cases more with
    | nil =>
      rw [chars_obj_nil, chars_obj_cons] at h
      exact absurd (List.cons.inj (List.cons.inj h).2).1 (by decide)
    | cons other more =>
      rw [chars_obj_cons, chars_obj_cons] at h
      rw [fieldChars_cons, fieldChars_cons]
      exact congrArg _ (List.cons.inj h).2

mutual

/-- **The value at the front of a text is recovered, with all that follows it.** -/
theorem chars_append_inj : ∀ (v w : Json) {rest others : List Char}, Parts rest → Parts others →
    v.chars ++ rest = w.chars ++ others → v = w ∧ rest = others
  | null, w => fun _ _ h => by
    obtain rfl := eq_null_of_mark (mark_eq h)
    exact ⟨rfl, List.append_cancel_left h⟩
  | bool b, w => fun _ _ h => by
    obtain rfl := eq_bool_of_mark (mark_eq h)
    exact ⟨rfl, List.append_cancel_left h⟩
  | num n, w => fun hrest hothers h => by
    obtain ⟨m, rfl⟩ := exists_num_of_mark (mark_eq h)
    rw [chars_num, chars_num] at h
    obtain ⟨rfl, htail⟩ := text_append_inj hrest hothers h
    exact ⟨rfl, htail⟩
  | str s, w => fun _ _ h => by
    obtain ⟨t, rfl⟩ := exists_str_of_mark (mark_eq h)
    rw [chars_str, chars_str, List.cons_append, List.cons_append, List.append_assoc,
      List.append_assoc] at h
    obtain ⟨htext, htail⟩ := escape_append_inj (List.cons.inj h).2
    rw [String.toList_inj.1 htext]
    exact ⟨rfl, htail⟩
  | arr items, w => fun _ _ h => by
    obtain ⟨more, rfl⟩ := exists_arr_of_mark (mark_eq h)
    obtain ⟨rfl, htail⟩ := itemChars_append_inj items more (itemChars_of_arr h)
    exact ⟨rfl, htail⟩
  | obj fields, w => fun _ _ h => by
    obtain ⟨more, rfl⟩ := exists_obj_of_mark (mark_eq h)
    obtain ⟨rfl, htail⟩ := fieldChars_append_inj fields more (fieldChars_of_obj h)
    exact ⟨rfl, htail⟩

theorem itemChars_append_inj : ∀ (items more : List Json) {rest others : List Char},
    itemChars items ++ rest = itemChars more ++ others → items = more ∧ rest = others
  | [], [] => fun h => ⟨rfl, List.append_cancel_left h⟩
  | [], item :: more => fun h => by
    rw [itemChars_nil, itemChars_cons] at h
    exact absurd (List.cons.inj h).1 (by decide)
  | item :: items, [] => fun h => by
    rw [itemChars_nil, itemChars_cons] at h
    exact absurd (List.cons.inj h).1 (by decide)
  | item :: items, other :: more => fun h => by
    rw [itemChars_cons, itemChars_cons, List.cons_append, List.cons_append, List.append_assoc,
      List.append_assoc] at h
    obtain ⟨rfl, htail⟩ := chars_append_inj item other (parts_itemChars _ _) (parts_itemChars _ _)
      (List.cons.inj h).2
    obtain ⟨rfl, hrest⟩ := itemChars_append_inj items more htail
    exact ⟨rfl, hrest⟩

theorem fieldChars_append_inj : ∀ (fields more : List (String × Json)) {rest others : List Char},
    fieldChars fields ++ rest = fieldChars more ++ others → fields = more ∧ rest = others
  | [], [] => fun h => ⟨rfl, List.append_cancel_left h⟩
  | [], (key, value) :: more => fun h => by
    rw [fieldChars_nil, fieldChars_cons] at h
    exact absurd (List.cons.inj h).1 (by decide)
  | (key, value) :: fields, [] => fun h => by
    rw [fieldChars_nil, fieldChars_cons] at h
    exact absurd (List.cons.inj h).1 (by decide)
  | (key, value) :: fields, (other, found) :: more => fun h => by
    rw [fieldChars_cons, fieldChars_cons] at h
    simp only [List.cons_append, List.append_assoc] at h
    obtain ⟨htext, hvalue⟩ := escape_append_inj (List.cons.inj (List.cons.inj h).2).2
    obtain rfl := String.toList_inj.1 htext
    obtain ⟨rfl, htail⟩ := chars_append_inj value found (parts_fieldChars _ _)
      (parts_fieldChars _ _) (List.cons.inj hvalue).2
    obtain ⟨rfl, hrest⟩ := fieldChars_append_inj fields more htail
    exact ⟨rfl, hrest⟩

end

/-- **No two values have one compact text.** -/
theorem compact_inj {v w : Json} (h : v.compact = w.compact) : v = w := by
  have hparts : Parts [] := by
    rintro c ⟨⟩
  exact (chars_append_inj v w hparts hparts (congrArg (fun text => text.toList ++ []) h)).1

end Json

end NestedQuery
