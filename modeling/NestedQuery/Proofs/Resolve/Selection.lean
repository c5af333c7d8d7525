import NestedQuery.Proofs.Resolve.Sorting
/-!
# Selection

What a store selects for a task about several rows, said without the
sort. Values of one kind stand before one another as one expects, with
null in front (`Json.Precedes`); rows do by the first sort column in
which they differ, backwards where the column is descending
(`SortKey.Before`). A ranking lists the rows of a task with their places
in the table, each row before the next or, where no sort column tells
the two apart, above it in the table (`Store.Ranking`).

A store selects the rows of a ranking (`Store.select_ranks`). A page is
a slice of them, and pages side by side make up the whole
(`Slices`).
-/

namespace NestedQuery

/-! ## Values -/

/-- A value stands before another of its kind. Null stands before every other value. -/
inductive Json.Precedes : Json → Json → Prop where
  | null {value : Json} : value ≠ .null → Precedes .null value
  | bool : Precedes (.bool false) (.bool true)
  | int {m n : Int} : m < n → Precedes (.num (.int m)) (.num (.int n))
  | str {s t : String} : s < t → Precedes (.str s) (.str t)

namespace SortKind

variable {kind : SortKind} {a b : Json}

theorem order_lt_iff (ha : kind.Holds a) (hb : kind.Holds b) : a.order b = .lt ↔ a.Precedes b := by
  constructor
  · intro h
    cases ha with
    | null =>
      refine .null fun heq => ?_
      rw [heq] at h
      cases h
    | bool p =>
      cases hb with
      | null => cases h
      | bool q => cases p <;> cases q <;> first | exact .bool | cases h
    | int m =>
      cases hb with
      | null => cases h
      | int n => exact .int (compare_lt_iff_lt.1 (Json.order_int m n ▸ h))
    | str s =>
      cases hb with
      | null => cases h
      | str t => exact .str (compare_lt_iff_lt.1 h)
  · intro h
    cases h with
    | null hne =>
      cases hb with
      | null => exact absurd rfl hne
      | bool => rfl
      | int => rfl
      | str => rfl
    | bool => rfl
    | int hlt => exact (Json.order_int ..).trans (compare_lt_iff_lt.2 hlt)
    | str hlt => exact compare_lt_iff_lt.2 hlt

theorem order_eq_iff (ha : kind.Holds a) (hb : kind.Holds b) : a.order b = .eq ↔ a = b := by
  constructor
  · intro h
    cases ha with
    | null => cases hb <;> first | rfl | cases h
    | bool p =>
      cases hb with
      | null => cases h
      | bool q => cases p <;> cases q <;> first | rfl | cases h
    | int m =>
      cases hb with
      | null => cases h
      | int n =>
        have hmn : m = n := compare_eq_iff_eq.1 (Json.order_int m n ▸ h)
        rw [hmn]
    | str s =>
      cases hb with
      | null => cases h
      | str t =>
        have hst : s = t := compare_eq_iff_eq.1 h
        rw [hst]
  · rintro rfl
    rw [order_eq ha ha]
    exact Std.ReflCmp.compare_self

/-- The order of values, on those of a kind: a total preorder with null at the bottom. -/
structure Ordered (kind : SortKind) : Prop where
  refl : ∀ {a}, kind.Holds a → a.order a = .eq
  total : ∀ {a b}, kind.Holds a → kind.Holds b → (a.order b).isLE ∨ (b.order a).isLE
  reverse : ∀ {a b}, kind.Holds a → kind.Holds b → b.order a = (a.order b).swap
  trans : ∀ {a b c}, kind.Holds a → kind.Holds b → kind.Holds c →
    (a.order b).isLE → (b.order c).isLE → (a.order c).isLE
  lowest : ∀ {a}, kind.Holds a → a ≠ .null → Json.null.order a = .lt
  precedes : ∀ {a b}, kind.Holds a → kind.Holds b → (a.order b = .lt ↔ a.Precedes b)

theorem ordered (kind : SortKind) : kind.Ordered where
  refl ha := (order_eq_iff ha ha).2 rfl
  total {a b} ha hb := by
    rw [order_eq ha hb, order_eq hb ha, ← Bool.or_eq_true]
    exact total_isLE kind.order a b
  reverse ha hb := by
    rw [order_eq ha hb, order_eq hb ha]
    exact Std.OrientedCmp.eq_swap
  trans ha hb hc := by
    rw [order_eq ha hb, order_eq hb hc, order_eq ha hc]
    exact Std.TransCmp.isLE_trans
  lowest ha hne := (order_lt_iff (.null _) ha).2 (.null hne)
  precedes := order_lt_iff

end SortKind

/-! ## Rows -/

namespace SortKey

/-- The value of a row in the column; null if it has none. -/
def cell (key : SortKey) (row : Record) : Json := (row.get? key.column).getD .null

/-- A row goes before another by the column. -/
def Puts (key : SortKey) (a b : Record) : Prop :=
  match key.direction with
  | .ascending => (key.cell a).Precedes (key.cell b)
  | .descending => (key.cell b).Precedes (key.cell a)

/-- A row goes before another by the first of the columns in which they differ. -/
inductive Before : List SortKey → Record → Record → Prop where
  | here {key : SortKey} {rest : List SortKey} {a b : Record} :
      key.Puts a b → Before (key :: rest) a b
  | later {key : SortKey} {rest : List SortKey} {a b : Record} :
      key.cell a = key.cell b → Before rest a b → Before (key :: rest) a b

/-- No column tells two rows apart. -/
def Tied (keys : List SortKey) (a b : Record) : Prop := ∀ key ∈ keys, key.cell a = key.cell b

variable {key : SortKey} {keys : List SortKey} {rows : List Record} {a b : Record}

theorem order_lt_iff (h : key.OneKind rows) (ha : a ∈ rows) (hb : b ∈ rows) :
    key.order a b = .lt ↔ key.Puts a b := by
  obtain ⟨kind, hkind⟩ := h
  unfold SortKey.order Puts
  cases key.direction with
  | ascending => exact SortKind.order_lt_iff (hkind a ha) (hkind b hb)
  | descending =>
    show (Json.order _ _).swap = .lt ↔ _
    rw [← kind.ordered.reverse (hkind a ha) (hkind b hb)]
    exact SortKind.order_lt_iff (hkind b hb) (hkind a ha)

theorem order_eq_iff (h : key.OneKind rows) (ha : a ∈ rows) (hb : b ∈ rows) :
    key.order a b = .eq ↔ key.cell a = key.cell b := by
  obtain ⟨kind, hkind⟩ := h
  rw [← show _ ↔ key.cell a = key.cell b from SortKind.order_eq_iff (hkind a ha) (hkind b hb)]
  unfold SortKey.order
  cases key.direction with
  | ascending => rfl
  | descending =>
    show (Json.order _ _).swap = .eq ↔ _
    exact Ordering.swap_eq_eq

theorem orderBy_lt_iff (h : ∀ key ∈ keys, key.OneKind rows) (ha : a ∈ rows) (hb : b ∈ rows) :
    orderBy keys a b = .lt ↔ Before keys a b := by
  induction keys with
  | nil =>
    constructor
    · exact fun hlt => nomatch hlt
    · exact fun hbefore => nomatch hbefore
  | cons key rest ih =>
    obtain ⟨hkey, hrest⟩ := List.forall_mem_cons.1 h
    rw [orderBy, Ordering.then_eq_lt, order_lt_iff hkey ha hb, order_eq_iff hkey ha hb, ih hrest]
    constructor
    · rintro (hputs | ⟨hcell, hbefore⟩)
      · exact .here hputs
      · exact .later hcell hbefore
    · intro hbefore
      cases hbefore with
      | here hputs => exact Or.inl hputs
      | later hcell hbefore => exact Or.inr ⟨hcell, hbefore⟩

theorem orderBy_eq_iff (h : ∀ key ∈ keys, key.OneKind rows) (ha : a ∈ rows) (hb : b ∈ rows) :
    orderBy keys a b = .eq ↔ Tied keys a b := by
  induction keys with
  | nil => simp [orderBy, Tied]
  | cons key rest ih =>
    obtain ⟨hkey, hrest⟩ := List.forall_mem_cons.1 h
    rw [orderBy, Ordering.then_eq_eq, order_eq_iff hkey ha hb, ih hrest, Tied, Tied,
      List.forall_mem_cons]

end SortKey

/-! ## Rankings -/

/-- The columns that a task sorts by. -/
def Task.sortKeys (task : Task) : List SortKey := task.sort.getD []

/-- The rows of a task with their places in the table, as they are ranked: by the sort columns, and
where these do not tell two rows apart, as in the table. -/
structure Store.Ranking (store : Store) (task : Task) (ranked : List (Record × Nat)) : Prop where
  perm : ranked.Perm ((store.rows task.model).zipIdx.filter fun entry => task.admits entry.1)
  ranked : ranked.Pairwise fun a b => SortKey.Before task.sortKeys a.1 b.1 ∨
    (SortKey.Tied task.sortKeys a.1 b.1 ∧ a.2 < b.2)

/-- A task without sort columns sorts by none. -/
theorem Task.sorted_eq (task : Task) (rows : List Record) :
    task.sorted rows = rows.mergeSort fun a b => (SortKey.orderBy task.sortKeys a b).isLE := by
  unfold Task.sorted Task.sortKeys
  cases task.sort with
  | some keys => rfl
  | none =>
    have hle : rows.Pairwise fun a b => (SortKey.orderBy [] a b).isLE = true :=
      List.pairwise_of_forall fun _ _ => rfl
    exact (List.mergeSort_of_pairwise hle).symm

/-- **A merge sort is stable.** An item is below those behind it, or ties with them and came
earlier. -/
theorem pairwise_mergeSort_zipIdx {α : Type} (order : α → α → Ordering) [Std.TransCmp order]
    (items : List α) :
    (items.zipIdx.mergeSort (List.zipIdxLE fun a b => (order a b).isLE)).Pairwise fun a b =>
      order a.1 b.1 = .lt ∨ (order a.1 b.1 = .eq ∧ a.2 < b.2) := by
  -- with their places all items differ, and so does every tie
  have hsorted := List.pairwise_mergeSort
    (List.zipIdxLE_trans fun _ _ _ => Std.TransCmp.isLE_trans)
    (List.zipIdxLE_total (total_isLE order)) items.zipIdx
  have hdistinct := List.pairwise_map.1 (((List.mergeSort_perm items.zipIdx
    (List.zipIdxLE fun a b => (order a b).isLE)).map Prod.snd).nodup_iff.2
      (List.nodup_zipIdx_map_snd items))
  refine (hsorted.and hdistinct).imp ?_
  rintro a b ⟨hle, hne⟩
  have hswap : order b.1 a.1 = (order a.1 b.1).swap := Std.OrientedCmp.eq_swap
  simp only [List.zipIdxLE, hswap] at hle
  cases hcase : order a.1 b.1 with
  | lt => exact Or.inl rfl
  | eq =>
    rw [hcase] at hle
    exact Or.inr ⟨rfl, lt_of_le_of_ne (of_decide_eq_true hle) hne⟩
  | gt =>
    rw [hcase] at hle
    cases hle

theorem Task.SortsPlainly.oneKind {task : Task} {rows : List Record} (h : task.SortsPlainly rows) :
    ∀ key ∈ task.sortKeys, key.OneKind rows := by
  unfold Task.sortKeys
  cases hsort : task.sort with
  | none => exact fun key hmem => nomatch hmem
  | some keys => exact h keys hsort

/-- **The rows of a task are ranked by its sort**, which is stable. -/
theorem Store.exists_ranking {store : Store} {task : Task}
    (hsorts : task.SortsPlainly (store.rows task.model)) :
    ∃ ranked, store.Ranking task ranked ∧ task.sorted (store.found task) = ranked.map Prod.fst := by
  have hkinds := hsorts.oneKind
  -- only rows of the table are known to compare well, so an order of all rows stands in
  obtain ⟨order, hcmp, horder⟩ := SortKey.orderBy_eq hkinds
  have hpairwise := pairwise_mergeSort_zipIdx order (store.rows task.model)
  generalize hall : (store.rows task.model).zipIdx.mergeSort
    (List.zipIdxLE fun a b => (order a b).isLE) = all at hpairwise
  have hperm : all.Perm (store.rows task.model).zipIdx := hall ▸ List.mergeSort_perm _ _
  have hmem : ∀ {entry}, entry ∈ all → entry.1 ∈ store.rows task.model := fun hentry =>
    List.fst_mem_of_mem_zipIdx (hperm.mem_iff.1 hentry)
  refine ⟨all.filter fun entry => task.admits entry.1, ⟨hperm.filter _, ?_⟩, ?_⟩
  · refine List.Pairwise.filter _ (hpairwise.imp_of_mem fun {a b} ha hb hab => ?_)
    have hlt := SortKey.orderBy_lt_iff hkinds (hmem ha) (hmem hb)
    have heq := SortKey.orderBy_eq_iff hkinds (hmem ha) (hmem hb)
    rw [horder _ (hmem ha) _ (hmem hb)] at hlt heq
    exact hab.imp hlt.1 (And.imp_left heq.1)
  · -- the rows are sorted among all of the table, and then those of the task are picked
    have hsorted : task.sorted (store.rows task.model) = all.map Prod.fst := by
      rw [task.sorted_eq, mergeSort_congr fun a ha b hb => by rw [horder a ha b hb], ← hall]
      exact List.mergeSort_zipIdx.symm
    rw [Store.found, ← Task.filter_sorted hsorts.ranks, hsorted, List.filter_map]
    rfl

/-! ## Pages -/

/-- Pages of a list, by where they begin and how long they may be: each is the slice of the list
that stands there, and pages of one length, side by side, are the list. -/
structure Slices {α : Type} (items : List α) (page : Nat → Nat → List α) : Prop where
  slice : ∀ offset limit position, (page offset limit)[position]? =
    if position < limit then items[offset + position]? else none
  tile : ∀ limit count, items.length ≤ count * limit →
    (List.range count).flatMap (fun i => page (i * limit) limit) = items

/-- Some pages side by side are the front of a list. -/
theorem flatMap_pages {α : Type} (items : List α) (limit count : Nat) :
    (List.range count).flatMap (fun i => (items.drop (i * limit)).take limit) =
      items.take (count * limit) := by
  induction count with
  | zero => simp
  | succ count ih =>
    rw [List.range_succ, List.flatMap_append, ih, Nat.succ_mul, List.take_add]
    simp

theorem slices_drop_take {α : Type} (items : List α) :
    Slices items fun offset limit => (items.drop offset).take limit where
  slice offset limit position := by rw [List.getElem?_take, List.getElem?_drop]
  tile limit count h := by rw [flatMap_pages, List.take_of_length_le h]

/-! ## Selection -/

/-- What a store selects for a task, given its rows as they are ranked. -/
structure Store.Draws (store : Store) (task : Task) (ranked : List (Record × Nat)) : Prop where
  whole : task.Unpaged →
    store.select task = .records (ranked.map fun entry => Record.project entry.1 task.fields)
  pages : ∃ page, Slices (ranked.map fun entry => Record.project entry.1 task.fields) page ∧
    ∀ offset limit, store.select { task with page := some ⟨true, offset, limit⟩ } =
      .records (page offset limit)

/-- **Selection.** If the columns that a task about several rows sorts by are each of one kind, then
the values in them are ordered as they should be, and what is selected are the rows of a ranking. -/
theorem Store.select_ranks {store : Store} {task : Task} (hbatch : task.batch.isBatch = true)
    (hsorts : task.SortsPlainly (store.rows task.model)) :
    (∀ kind : SortKind, kind.Ordered) ∧
      ∃ ranked, store.Ranking task ranked ∧ store.Draws task ranked := by
  obtain ⟨ranked, hranking, hsorted⟩ := Store.exists_ranking hsorts
  refine ⟨SortKind.ordered, ranked, hranking, ?_, _, slices_drop_take _, fun offset limit => ?_⟩
  · intro hunpaged
    rw [Store.select, if_pos hbatch, hunpaged.paged, hsorted, List.map_map]
    rfl
  · have hpage : store.select { task with page := some ⟨true, offset, limit⟩ } =
        .records ((((task.sorted (store.found task)).drop offset).take limit).map
          fun row => Record.project row task.fields) := if_pos hbatch
    rw [hpage, hsorted, List.map_take, List.map_drop, List.map_map]
    rfl

namespace Library

/-- Four authors, two of one name; one has no number. -/
def namesakes : Store :=
  ⟨[("author", [[("id", .ofNat 2), ("name", .str "Ann")], [("id", .ofNat 4), ("name", .str "Cid")],
    [("name", .str "Bob")], [("id", .ofNat 1), ("name", .str "Ann")]])]⟩

/-- The numbers of some authors, by name, the last one first, and those of one name by number. -/
def roll : Task where
  model := "author"
  kind := .collection
  parser := "default"
  executor := "memory"
  path := ⟨["authors"], []⟩
  batch := ⟨true, false, true⟩
  isNested := false
  fields := some [{ source := "id", alias? := some "number" }]
  sort := some [⟨"name", .descending⟩, ⟨"id", .ascending⟩]
  filter := some (SortedMap.empty.insert "name" (.anyOf [.string "Ann", .string "Bob"]))

end Library

theorem Store.select_ranks_roll :
    Library.roll.batch.isBatch = true ∧
    Library.roll.SortsPlainly (Library.namesakes.rows "author") ∧
    (∀ kind : SortKind, kind.Ordered) ∧
      ∃ ranked, Library.namesakes.Ranking Library.roll ranked ∧
        Library.namesakes.Draws Library.roll ranked := by
  have hsorts : Library.roll.SortsPlainly (Library.namesakes.rows "author") := by
    intro keys hkeys
    obtain rfl := Option.some.inj hkeys
    refine List.forall_mem_cons.2 ⟨⟨.text, ?_⟩, List.forall_mem_singleton.2 ⟨.integer, ?_⟩⟩
    · exact List.forall_mem_cons.2 ⟨.str _, List.forall_mem_cons.2 ⟨.str _,
        List.forall_mem_cons.2 ⟨.str _, List.forall_mem_singleton.2 (.str _)⟩⟩⟩
    · exact List.forall_mem_cons.2 ⟨.int _, List.forall_mem_cons.2 ⟨.int _,
        List.forall_mem_cons.2 ⟨.null _, List.forall_mem_singleton.2 (.int _)⟩⟩⟩
  exact ⟨rfl, hsorts, Store.select_ranks rfl hsorts⟩

/-- The second page of one: the namesakes follow the one author before them, by number. -/
example : Library.namesakes.select { Library.roll with page := some ⟨true, 1, 1⟩ } =
    .records [[("id", .ofNat 1)]] := by
  cbv

end NestedQuery
