import NestedQuery.Proofs.Json.JoinKeys
import NestedQuery.Proofs.Resolve.Memory
import NestedQuery.Proofs.Resolve.Shaping
import NestedQuery.Proofs.Resolve.Sorting
import NestedQuery.Proofs.SortedMap
/-!
# Nested loops

The plain way to answer a request from a store: for each row, look for
what joins to it, and do the same with each row found. There is no join
cache, no batch and no write behind; rows are told apart by the values
that they hold. `Store.answerAll` is what a run of the engine is
measured by.

A node of the plan reads three things off its task: which rows it asks
for by itself, in which order, and what it shows of each. The constraint
that the engine puts on the column to join by stands in for one that the
request put there, so the node by itself does not ask for it.
-/

namespace NestedQuery

/-- Whether a row carries a value in a column that satisfies a constraint. -/
def Record.meets (row : Record) (column : String) (constraint : Constraint) : Bool :=
  match row.get? column with
  | some value => constraint.admits value
  | none => false

/-- Whether a row of a child joins to one of its parent: both carry the same value, which is not
null. -/
def Link.joins (link : Link) (parent child : Record) : Bool :=
  match parent.get? link.referencedKey, child.get? link.localKey with
  | some key, some value => !key.isNull && value.same key
  | _, _ => false

/-- Whether a task asks for a row by itself: the row satisfies the constraints of the request on
all columns but the one by which the task joins. -/
def Task.asks (task : Task) (row : Record) : Bool :=
  (task.filter.getD .empty).entries.all fun (column, constraint) =>
    task.link.any (fun link => link.localKey = column) || row.meets column constraint

/-- The key of a branch in the answer to its parent. -/
def Branch.key (branch : Branch) : String := branch.root.path.keys.headD ""

/-- A list for a group, and otherwise the first of some values or null. -/
def Json.pick (isGroup : Bool) (values : List Json) : Json :=
  if isGroup then .arr values else values.headD .null

/-- Whether a row of a task is passed over by the nodes that join to it by a link: so is one of
several that lacks the column to join by. -/
def Task.skips (task : Task) (link : Link) (row : Record) : Bool :=
  task.batch.isBatch && !row.has link.referencedKey

namespace Store

variable (store : Store) (skips : Task → Link → Record → Bool)

mutual

/-- The answer to a node: of the rows that join, those it asks for, in its order. -/
def answer (joins : Record → Bool) : Branch → Json
  | .node task nested =>
    let rows := task.sorted ((store.rows task.model).filter fun row => joins row && task.asks row)
    .pick task.batch.isGroup (rows.map fun row => .obj (answerRow task row nested))

/-- The answer to a row: what its task shows of it, with the answers to the nodes nested in the
task, but for those that pass it over. -/
def answerRow (task : Task) (row : Record) : List Branch → Record
  | [] => task.view row
  | branch :: rest =>
    let shown := answerRow task row rest
    match branch.root.link with
    | none => shown
    | some link =>
      if skips task link row then shown
      else shown.put branch.key (answer (link.joins row) branch)

end

/-- The answer to a whole request. -/
def answerAll (branches : List Branch) : Json :=
  .obj (branches.map fun branch => (branch.key, store.answer skips (fun _ => true) branch))

end Store

/-! ## What a task asks for -/

namespace Task

variable {task : Task} {row : Record} {link : Link}

theorem admits_iff : task.admits row = true ↔
    ∀ column constraint, (task.filter.getD .empty).get? column = some constraint →
      row.meets column constraint = true := by
  have hall : ∀ filter : Filter, filter.admits row = true ↔
      ∀ column constraint, filter.get? column = some constraint →
        row.meets column constraint = true := by
    intro filter
    unfold Filter.admits
    rw [List.all_eq_true]
    constructor
    · intro h column constraint hfound
      exact h (column, constraint) (SortedMap.mem_entries.2 hfound)
    · intro h entry hmem
      exact h entry.1 entry.2 (SortedMap.mem_entries.1 hmem)
  unfold admits
  cases task.filter with
  | some filter => exact hall filter
  | none =>
    refine ⟨fun _ column constraint hfound => ?_, fun _ => rfl⟩
    cases hfound

theorem asks_iff : task.asks row = true ↔
    ∀ column constraint, (task.filter.getD .empty).get? column = some constraint →
      (∀ link, task.link = some link → link.localKey ≠ column) →
      row.meets column constraint = true := by
  unfold asks
  rw [List.all_eq_true]
  have hany : ∀ column, (task.link.any fun link => link.localKey = column) = false ↔
      ∀ link, task.link = some link → link.localKey ≠ column := by
    intro column
    cases task.link <;> simp
  constructor
  · intro h column constraint hfound hother
    have hentry := h (column, constraint) (SortedMap.mem_entries.2 hfound)
    simpa [(hany column).2 hother] using hentry
  · rintro h ⟨column, constraint⟩ hmem
    rw [Bool.or_eq_true]
    cases hlink : task.link.any fun link => link.localKey = column with
    | true => exact Or.inl rfl
    | false =>
      exact Or.inr (h column constraint (SortedMap.mem_entries.1 hmem) ((hany column).1 hlink))

/-- A task at the top has no constraint but its own. -/
theorem admits_of_link_none (hlink : task.link = none) : task.admits row = task.asks row := by
  rw [Bool.eq_iff_iff, admits_iff, asks_iff]
  simp [hlink]

/-- A task that joins has the join constraint, and otherwise what it asks for by itself. -/
theorem admits_constrain (hlink : task.link = some link) (constraint : Constraint) :
    (task.constrain link.localKey constraint).admits row =
      (row.meets link.localKey constraint && task.asks row) := by
  rw [Bool.eq_iff_iff, Bool.and_eq_true, admits_iff, asks_iff]
  have hget : ∀ column, (((task.constrain link.localKey constraint).filter).getD .empty).get? column =
      if link.localKey = column then some constraint
      else (task.filter.getD .empty).get? column :=
    SortedMap.get?_insert _ _ _
  simp only [hget, hlink, Option.some.injEq, forall_eq']
  constructor
  · intro h
    refine ⟨h link.localKey constraint (if_pos rfl), fun column other hfound hne => ?_⟩
    exact h column other (by rw [if_neg hne, hfound])
  · rintro ⟨hown, hothers⟩ column other hfound
    split at hfound
    · next heq =>
      obtain rfl := Option.some.inj hfound
      exact heq ▸ hown
    · next hne => exact hothers column other hfound hne

end Task

/-! ## What joins -/

/-- Plain values are the same if they are equal. -/
theorem Json.same_iff_eq {a b : Json} (ha : a.Plain) (hb : b.Plain) : a.same b = true ↔ a = b := by
  cases ha <;> cases hb <;> simp [same, Number.same]

/-- A row carries nothing but plain values in a column, where it carries one at all. -/
def Record.PlainAt (row : Record) (column : String) : Prop :=
  ∀ value, row.get? column = some value → value.Plain

theorem Link.joins_iff {link : Link} {parent child : Record}
    (hparent : parent.PlainAt link.referencedKey) (hchild : child.PlainAt link.localKey) :
    link.joins parent child = true ↔
      ∃ key, parent.get? link.referencedKey = some key ∧ key ≠ .null ∧
        child.get? link.localKey = some key := by
  unfold joins
  cases hkey : parent.get? link.referencedKey with
  | none => simp
  | some key =>
    cases hvalue : child.get? link.localKey with
    | none => simp
    | some value =>
      have hnull : (!key.isNull) = true ↔ key ≠ .null := by
        cases key <;> simp [Json.isNull]
      simp only [Bool.and_eq_true, hnull, Json.same_iff_eq (hchild value hvalue) (hparent key hkey),
        Option.some.injEq, exists_eq_left']

/-- The keys of an index are what the records carry. -/
theorem JoinIndex.mem_keys_ofOutcome {outcome : Outcome} {column : String} {key : Json} :
    key ∈ (ofOutcome outcome column).keys ↔
      ∃ record ∈ outcome.rows, record.get? column = some key := by
  have hscan : ∀ (records : List Record) (position : Nat),
      key ∈ (scan column position records).map Prod.fst ↔
        ∃ record ∈ records, record.get? column = some key := by
    intro records
    induction records with
    | nil => simp
    | cons record rest ih =>
      intro position
      rw [scan_cons, List.map_append, List.mem_append, ih, List.exists_mem_cons_iff]
      refine or_congr ?_ Iff.rfl
      cases record.get? column <;> simp [eq_comm]
  rw [keys, entries_ofOutcome]
  exact hscan _ 0

/-- A host shows some rows of its table: each is cut to what the host fetches, with the columns to
join on among it, and there is one record only where the host is about one. -/
structure Host.Shows (store : Store) (host : Host) (drawn : List Record) : Prop where
  rows : host.fetched.rows = drawn.map fun row => Record.project row host.task.fields
  table : ∀ row ∈ drawn, row ∈ store.rows host.task.model
  single : host.task.batch.isBatch = false → ∃ record, host.fetched = .record record
  columns : ∀ row ∈ drawn, ∀ column ∈ host.task.joinColumns,
    (Record.project row host.task.fields).get? column = row.get? column

/-- A host that is about one record shows one row. -/
theorem Host.Shows.exists_single {store : Store} {host : Host} {drawn : List Record}
    (h : host.Shows store drawn) (hsingle : host.task.batch.isBatch = false) :
    ∃ row, drawn = [row] ∧ host.fetched = .record (Record.project row host.task.fields) := by
  obtain ⟨record, hrecord⟩ := h.single hsingle
  have hrows := h.rows
  rw [hrecord] at hrows
  obtain ⟨row, hdrawn, hproject⟩ := List.map_eq_singleton_iff.1 hrows.symm
  exact ⟨row, hdrawn, by rw [hrecord, hproject]⟩

/-- The keys by which a host is joined are what its rows carry. -/
theorem Host.Shows.mem_keys {store : Store} {host : Host} {drawn : List Record}
    (h : host.Shows store drawn) {column : String} (hcolumn : column ∈ host.task.joinColumns)
    {key : Json} :
    key ∈ (JoinIndex.ofOutcome host.fetched column).keys ↔
      ∃ parent ∈ drawn, parent.get? column = some key := by
  rw [JoinIndex.mem_keys_ofOutcome, h.rows]
  simp only [List.mem_map, exists_exists_and_eq_and]
  exact exists_congr fun parent => and_congr_right fun hmem => by
    rw [h.columns parent hmem _ hcolumn]

/-- A task joins to the rows that a host shows. -/
structure Task.JoinsShown (store : Store) (task : Task) (link : Link) (host : Host)
    (drawn : List Record) : Prop where
  shows : host.Shows store drawn
  carried : task.link = some link
  underBatch : task.batch.underBatch = host.task.batch.isBatch
  column : link.referencedKey ∈ host.task.joinColumns

/-- A task joins to the rows that a host shows, on columns that hold plain values. -/
structure Task.JoinsRows (store : Store) (task : Task) (link : Link) (host : Host)
    (drawn : List Record) : Prop extends task.JoinsShown store link host drawn where
  parents : ∀ parent ∈ drawn, parent.PlainAt link.referencedKey
  children : ∀ child ∈ store.rows task.model, child.PlainAt link.localKey

section

variable {store : Store} {host : Host} {drawn : List Record} {task : Task} {link : Link}

/-- The join constraint admits the values, other than null, that the rows of the host carry in the
column to join by. -/
theorem Task.admits_hostConstraint (h : task.JoinsRows store link host drawn) {value : Json}
    (hvalue : value.Plain) :
    (task.hostConstraint link host).admits value = true ↔
      (∃ parent ∈ drawn, parent.get? link.referencedKey = some value) ∧ value ≠ .null := by
  unfold hostConstraint
  rw [h.underBatch]
  cases hbatch : host.task.batch.isBatch with
  | true =>
    have hkeys : ∀ key ∈ (JoinIndex.ofOutcome host.fetched link.referencedKey).keys, key.Plain := by
      intro key hmem
      obtain ⟨parent, hparent, hkey⟩ := (h.shows.mem_keys h.column).1 hmem
      exact h.parents parent hparent key hkey
    rw [if_pos rfl, Constraint.admits_anyOfKeys hkeys hvalue, h.shows.mem_keys h.column]
  | false =>
    obtain ⟨row, rfl, hrecord⟩ := h.shows.exists_single hbatch
    have hrow : row ∈ [row] := List.mem_singleton_self _
    rw [if_neg Bool.false_ne_true, JoinIndex.single?_ofOutcome, hrecord]
    simp only [h.shows.columns row hrow _ h.column, List.mem_singleton, exists_eq_left]
    cases hkey : row.get? link.referencedKey with
    | none => simp [Constraint.admits, Constraint.anyAdmits]
    | some key =>
      rw [Option.bind_some, Constraint.admits_ofKey?_getD (h.parents row hrow key hkey) hvalue,
        Option.some.injEq, eq_comm]

/-- **The join constraint lets through what joins to any of the rows of the host**, be they many or
one. -/
theorem Task.meets_hostConstraint (h : task.JoinsRows store link host drawn) {child : Record}
    (hmem : child ∈ store.rows task.model) :
    child.meets link.localKey (task.hostConstraint link host) = true ↔
      ∃ parent ∈ drawn, link.joins parent child = true := by
  have hchild := h.children child hmem
  have hjoins : (∃ parent ∈ drawn, link.joins parent child = true) ↔
      ∃ parent ∈ drawn, ∃ key, parent.get? link.referencedKey = some key ∧ key ≠ .null ∧
        child.get? link.localKey = some key :=
    exists_congr fun parent => and_congr_right fun hmem =>
      Link.joins_iff (h.parents parent hmem) hchild
  rw [hjoins]
  unfold Record.meets
  cases hvalue : child.get? link.localKey with
  | none => simp
  | some value =>
    simp only [Task.admits_hostConstraint h (hchild value hvalue), Option.some.injEq]
    constructor
    · rintro ⟨⟨parent, hmem, hkey⟩, hnull⟩
      exact ⟨parent, hmem, value, hkey, hnull, rfl⟩
    · rintro ⟨parent, hmem, key, hkey, hnull, rfl⟩
      exact ⟨⟨parent, hmem, hkey⟩, hnull⟩

/-- The rows that the store finds for a task joined to a host: of those that the join constraint lets
through, the ones it asks for by itself. -/
theorem Store.found_eq (hlink : task.link = some link) (host : Host) :
    store.found (task.joinedTo (some host)) = (store.rows task.model).filter fun child =>
      child.meets link.localKey (task.hostConstraint link host) && task.asks child := by
  rw [Task.joinedTo_linked hlink]
  exact List.filter_congr fun child _ => Task.admits_constrain hlink _

/-- Told by the rows of the host, they are those that join to any of them. -/
theorem Store.found_joinedTo (h : task.JoinsRows store link host drawn) :
    store.found (task.joinedTo (some host)) = (store.rows task.model).filter fun child =>
      (drawn.any fun parent => link.joins parent child) && task.asks child := by
  rw [found_eq h.carried]
  refine List.filter_congr fun child hmem => ?_
  congr 1
  rw [Bool.eq_iff_iff, List.any_eq_true]
  exact Task.meets_hostConstraint h hmem

/-- **The rows fetched for all rows of a host, told apart by the key of one of them**, are those
that a search for this one alone would find, in the same order. -/
theorem Store.sorted_joining (h : task.JoinsRows store link host drawn)
    (hsorts : task.SortsPlainly (store.rows task.model)) {parent : Record} (hparent : parent ∈ drawn)
    {key : Json} (hkey : parent.get? link.referencedKey = some key) :
    (task.sorted (store.found (task.joinedTo (some host)))).filter
        (fun child => child.joins link.localKey key) =
      task.sorted ((store.rows task.model).filter fun child =>
        link.joins parent child && task.asks child) := by
  rw [Store.found_joinedTo h, ← Task.filter_sorted hsorts.ranks,
    List.filter_filter, ← Task.filter_sorted hsorts.ranks]
  refine List.filter_congr fun child hmem => ?_
  have hchild := h.children child (Task.mem_sorted.1 hmem)
  have hjoins : ∀ other ∈ drawn, link.joins other child = true ↔
      ∃ key, other.get? link.referencedKey = some key ∧ key ≠ .null ∧
        child.get? link.localKey = some key :=
    fun other hother => Link.joins_iff (h.parents other hother) hchild
  rw [← Bool.and_assoc]
  congr 1
  rw [Bool.eq_iff_iff, Bool.and_eq_true, List.any_eq_true, hjoins parent hparent]
  unfold Record.joins
  constructor
  · rintro ⟨hsame, other, hother, hmeets⟩
    obtain ⟨value, -, hnull, hvalue⟩ := (hjoins other hother).1 hmeets
    rw [hvalue] at hsame
    have heq : value = key := Json.joinKey_inj (hchild value hvalue) (h.parents parent hparent key hkey)
      (by simpa using hsame)
    exact ⟨key, hkey, heq ▸ hnull, heq ▸ hvalue⟩
  · rintro ⟨value, hvalue, hnull, hcarried⟩
    obtain rfl := Option.some.inj (hvalue.symm.trans hkey)
    rw [hcarried]
    exact ⟨by simp, parent, hparent, (hjoins parent hparent).2 ⟨value, hvalue, hnull, hcarried⟩⟩

end

end NestedQuery
