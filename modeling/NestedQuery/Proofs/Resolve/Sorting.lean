import Mathlib
import NestedQuery.Proofs.Plan.Sound
import NestedQuery.Resolve.Store
/-!
# Stable sorting

On values of one kind, and null, `Json.order` is a total preorder, and
so is the order of rows by columns of one kind each. A merge sort by a
total preorder is stable, which is used here in one form only: leaving
out rows before or after the sort comes to the same
(`Task.filter_sorted`). That is what allows the rows of all parents to
be sorted together and told apart later.
-/

namespace NestedQuery

/-! ## Sorting and leaving out -/

section

variable {α : Type} {le : α → α → Bool}

/-- A list that falls into a part where a property fails and a part where it holds does so in one
way. -/
theorem split_unique {q : α → Bool} {a b a' b' : List α} (h : a ++ b = a' ++ b')
    (ha : ∀ x ∈ a, q x = false) (hb : ∀ x ∈ b, q x = true) (ha' : ∀ x ∈ a', q x = false)
    (hb' : ∀ x ∈ b', q x = true) : a = a' ∧ b = b' := by
  have hfilter : ∀ {a b : List α}, (∀ x ∈ a, q x = false) → (∀ x ∈ b, q x = true) →
      (a ++ b).filter q = b ∧ (a ++ b).filter (fun x => !q x) = a := by
    intro a b ha hb
    rw [List.filter_append, List.filter_append, List.filter_eq_self.2 hb,
      List.filter_eq_nil_iff.2 fun x hx => by simp [ha x hx],
      List.filter_eq_self.2 fun x hx => by simp [ha x hx],
      List.filter_eq_nil_iff.2 fun x hx => by simp [hb x hx]]
    simp
  obtain ⟨hright, hleft⟩ := hfilter ha hb
  obtain ⟨hright', hleft'⟩ := hfilter ha' hb'
  exact ⟨by rw [← hleft, h, hleft'], by rw [← hright, h, hright']⟩

/-- Orders that agree on the items of a list sort it in the same way. -/
theorem mergeSort_congr {le' : α → α → Bool} {items : List α}
    (h : ∀ a ∈ items, ∀ b ∈ items, le a b = le' a b) : items.mergeSort le = items.mergeSort le' := by
  have hmap := List.map_mergeSort (f := id) h
  rwa [List.map_id, List.map_id] at hmap

/-- Of any two items one is at most the other. -/
theorem total_isLE (order : α → α → Ordering) [Std.OrientedCmp order] (a b : α) :
    ((order a b).isLE || (order b a).isLE) = true := by
  have hswap : order b a = (order a b).swap := Std.OrientedCmp.eq_swap
  rw [hswap]
  cases order a b <;> rfl

/-- **Leaving out elements commutes with a stable sort.** -/
theorem filter_mergeSort (htrans : ∀ a b c, le a b = true → le b c = true → le a c = true)
    (htotal : ∀ a b, (le a b || le b a) = true) (p : α → Bool) (items : List α) :
    (items.mergeSort le).filter p = (items.filter p).mergeSort le := by
  induction items with
  | nil => simp
  | cons item rest ih =>
    obtain ⟨front, back, hsorted, hrest, hfront⟩ := List.mergeSort_cons htrans htotal item rest
    rw [hrest, List.filter_append] at ih
    rw [hsorted, List.filter_append]
    by_cases hp : p item = true
    · obtain ⟨front', back', hsorted', hrest', hfront'⟩ :=
        List.mergeSort_cons htrans htotal item (rest.filter p)
      -- both sorts put the item behind exactly those that it does not precede
      have hback : ∀ {front back rest : List α}, (item :: rest).mergeSort le = front ++ item :: back →
          ∀ x ∈ back, le item x = true := by
        intro front back rest heq x hx
        have hpairwise := List.pairwise_mergeSort htrans htotal (item :: rest)
        rw [heq] at hpairwise
        exact (List.pairwise_cons.1 (List.pairwise_append.1 hpairwise).2.1).1 x hx
      have hsplit := split_unique (ih.trans hrest')
        (fun x hx => by simpa using hfront x (List.mem_of_mem_filter hx))
        (fun x hx => hback hsorted x (List.mem_of_mem_filter hx))
        (fun x hx => by simpa using hfront' x hx) (hback hsorted')
      rw [List.filter_cons_of_pos hp, List.filter_cons_of_pos hp, hsorted', hsplit.1, hsplit.2]
    · rw [List.filter_cons_of_neg hp, List.filter_cons_of_neg hp, ih]

end

/-! ## Values of one kind -/

/-- The kinds of values that rows are sorted by. -/
inductive SortKind where
  | truth
  | integer
  | text

namespace SortKind

/-- A value is of a kind, or null. -/
inductive Holds : SortKind → Json → Prop where
  | null (kind : SortKind) : Holds kind .null
  | bool (b : Bool) : Holds truth (.bool b)
  | int (n : Int) : Holds integer (.num (.int n))
  | str (s : String) : Holds text (.str s)

/-- The integer that a value is. -/
def int? : Json → Option Int
  | .num (.int n) => some n
  | _ => none

/-- The order of values of a kind; all others count as null. -/
def order : SortKind → Json → Json → Ordering
  | truth => compareOn Json.bool?
  | integer => compareOn int?
  | text => compareOn Json.text?

instance (kind : SortKind) : Std.TransCmp kind.order := by
  cases kind <;> exact inferInstanceAs (Std.TransCmp (compareOn _))

/-- On values of one kind the order of values is that of the kind. -/
theorem order_eq {kind : SortKind} {a b : Json} (ha : kind.Holds a) (hb : kind.Holds b) :
    a.order b = kind.order a b := by
  cases ha with
  | null => cases hb <;> first | rfl | (cases kind <;> rfl)
  | bool p =>
    cases hb with
    | null => rfl
    | bool q => cases p <;> cases q <;> rfl
  | int n =>
    cases hb with
    | null => rfl
    | int m => exact Json.order_int n m
  | str s => cases hb <;> rfl

end SortKind

/-! ## Rows -/

/-- The values of a column in some rows are of one kind, but for those that are null or missing. -/
def SortKey.OneKind (key : SortKey) (rows : List Record) : Prop :=
  ∃ kind : SortKind, ∀ row ∈ rows, kind.Holds ((row.get? key.column).getD .null)

/-- The order of rows by columns that each have a kind. -/
def rowOrder : List (SortKey × SortKind) → Record → Record → Ordering
  | [] => fun _ _ => .eq
  | (key, kind) :: rest => compareLex
    (match key.direction with
      | .ascending => fun a b =>
        kind.order ((a.get? key.column).getD .null) ((b.get? key.column).getD .null)
      | .descending => fun a b =>
        kind.order ((b.get? key.column).getD .null) ((a.get? key.column).getD .null))
    (rowOrder rest)

instance (keys : List (SortKey × SortKind)) : Std.TransCmp (rowOrder keys) := by
  induction keys with
  | nil =>
    refine { eq_swap := rfl, isLE_trans := ?_ }
    intro _ _ _ _ _
    rfl
  | cons entry rest ih =>
    obtain ⟨key, kind⟩ := entry
    have hcolumn : Std.TransCmp fun a b : Record =>
        kind.order ((a.get? key.column).getD .null) ((b.get? key.column).getD .null) :=
      { eq_swap := Std.OrientedCmp.eq_swap, isLE_trans := Std.TransCmp.isLE_trans }
    unfold rowOrder
    cases key.direction with
    | ascending => exact inferInstance
    | descending =>
      have hswap : Std.TransCmp fun a b : Record =>
        kind.order ((b.get? key.column).getD .null) ((a.get? key.column).getD .null) :=
        Std.TransCmp.opposite
      exact inferInstance

/-- On rows whose columns are of one kind each, the order by the columns is a total preorder. -/
theorem SortKey.orderBy_eq {keys : List SortKey} {rows : List Record}
    (h : ∀ key ∈ keys, key.OneKind rows) :
    ∃ order : Record → Record → Ordering, Std.TransCmp order ∧
      ∀ a ∈ rows, ∀ b ∈ rows, orderBy keys a b = order a b := by
  have hkinds : ∃ kinds, ∀ a ∈ rows, ∀ b ∈ rows, orderBy keys a b = rowOrder kinds a b := by
    induction keys with
    | nil => exact ⟨[], fun _ _ _ _ => rfl⟩
    | cons key rest ih =>
      obtain ⟨⟨kind, hkind⟩, hrest⟩ := List.forall_mem_cons.1 h
      obtain ⟨kinds, hkinds⟩ := ih hrest
      refine ⟨(key, kind) :: kinds, fun a ha b hb => ?_⟩
      rw [orderBy, rowOrder, compareLex, hkinds a ha b hb, SortKey.order,
        SortKind.order_eq (hkind a ha) (hkind b hb)]
      cases key.direction with
      | ascending => rfl
      | descending =>
        show (Ordering.swap _).then _ = _
        rw [← Std.OrientedCmp.eq_swap]
  obtain ⟨kinds, hkinds⟩ := hkinds
  exact ⟨rowOrder kinds, inferInstance, hkinds⟩

/-- A task sorts some rows by columns of one kind each. -/
def Task.SortsPlainly (task : Task) (rows : List Record) : Prop :=
  ∀ keys, task.sort = some keys → ∀ key ∈ keys, key.OneKind rows

/-- A task sorts some rows by a total preorder of them. -/
def Task.Ranks (task : Task) (rows : List Record) : Prop :=
  ∀ keys, task.sort = some keys → ∃ order : Record → Record → Ordering, Std.TransCmp order ∧
    ∀ a ∈ rows, ∀ b ∈ rows, SortKey.orderBy keys a b = order a b

theorem Task.SortsPlainly.ranks {task : Task} {rows : List Record} (h : task.SortsPlainly rows) :
    task.Ranks rows :=
  fun keys hkeys => SortKey.orderBy_eq (h keys hkeys)

/-- A total preorder of some rows is one of fewer rows. -/
theorem Task.Ranks.mono {task : Task} {rows fewer : List Record} (h : task.Ranks rows)
    (hsubset : fewer ⊆ rows) : task.Ranks fewer := by
  intro keys hkeys
  obtain ⟨order, htrans, horder⟩ := h keys hkeys
  exact ⟨order, htrans, fun a ha b hb => horder a (hsubset ha) b (hsubset hb)⟩

/-- **Rows may be left out before or after they are sorted.** -/
theorem Task.filter_sorted {task : Task} {rows : List Record} (h : task.Ranks rows)
    (p : Record → Bool) : (task.sorted rows).filter p = task.sorted (rows.filter p) := by
  unfold Task.sorted
  cases hsort : task.sort with
  | none => rfl
  | some keys =>
    obtain ⟨order, hcmp, horder⟩ := h keys hsort
    have hagree : ∀ a ∈ rows, ∀ b ∈ rows,
        (SortKey.orderBy keys a b).isLE = (order a b).isLE := by
      intro a ha b hb
      rw [horder a ha b hb]
    show (rows.mergeSort _).filter p = (rows.filter p).mergeSort _
    rw [mergeSort_congr hagree, mergeSort_congr fun a ha b hb =>
      hagree a (List.mem_of_mem_filter ha) b (List.mem_of_mem_filter hb)]
    exact filter_mergeSort (fun _ _ _ => Std.TransCmp.isLE_trans) (total_isLE order) p rows

/-- A task that asks for no page takes all rows. -/
theorem Task.Unpaged.paged {task : Task} (h : task.Unpaged) (rows : List Record) :
    task.paged rows = rows := by
  unfold Task.paged
  cases hpage : task.page with
  | none => rfl
  | some page => simp [h page hpage]

/-- Sorting neither adds nor drops a row. -/
theorem Task.mem_sorted {task : Task} {rows : List Record} {row : Record} :
    row ∈ task.sorted rows ↔ row ∈ rows := by
  unfold Task.sorted
  split
  · exact List.mem_mergeSort
  · rfl

end NestedQuery
