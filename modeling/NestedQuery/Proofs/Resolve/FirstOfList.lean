import NestedQuery.Proofs.Plan.Twin
import NestedQuery.Proofs.Resolve.Agreement
/-!
# A record, alone and in front of a list

A node read under the name of its model gives one record, and read under
the group name it gives a list. The two runs join differently all the
way down: below one record by the constraint taken from its key, and
below a list by the text of each key. Where keys are told apart alike
both ways (`Store.Tells`), each row finds the same rows either way
(`Store.matching`), and the one record is the first of the list, but for
rows without the column to join by: a list passes them over
(`Store.Shorn`).
-/

namespace NestedQuery

/-! ## What is supposed -/

/-- A store in which keys are told from the values of linked rows by their texts as they are by the
constraints taken from them. -/
def Store.Tells (catalog : Catalog) (store : Store) : Prop :=
  ∀ child ∈ catalog.models, ∀ parent ∈ catalog.models, ∀ link, child.link? parent = some link →
    ∀ row ∈ store.rows parent.name, ∀ other ∈ store.rows child.name, ∀ key value,
      row.get? link.referencedKey = some key → other.get? link.localKey = some value →
      key.Tells value

/-- A store whose rows carry the columns that other models join to. -/
def Store.Carries (catalog : Catalog) (store : Store) : Prop :=
  ∀ child ∈ catalog.models, ∀ parent ∈ catalog.models, ∀ link, child.link? parent = some link →
    ∀ row ∈ store.rows parent.name, row.has link.referencedKey = true

/-- A sound task that asks for no page and sorts by a total preorder. -/
structure Task.Steady (catalog : Catalog) (store : Store) (task : Task) : Prop where
  sound : task.Sound catalog
  unpaged : task.Unpaged
  ranks : task.Ranks (store.rows task.model)

theorem Store.Plain.tells {catalog : Catalog} {store : Store} (h : store.Plain catalog) :
    store.Tells catalog := by
  intro child hchild parent hparent link hlink row hrow other hother key value hkey hvalue
  obtain ⟨hchildren, hparents⟩ := h.joined child hchild parent hparent link hlink
  exact Constraint.tells_of_plain (hparents row hrow key hkey) (hchildren other hother value hvalue)

/-! ## The rows that match a key -/

/-- The rows of a task that match a key, in its order: of those that carry the key, if it is one,
those it asks for by itself. -/
def Store.matching (store : Store) (task : Task) (link : Link) (key : Json) : List Record :=
  task.sorted ((store.rows task.model).filter fun child =>
    (key.isKey && child.joins link.localKey key) && task.asks child)

/-- A task joins to the rows that a host shows, by keys that are told apart. -/
structure Task.LooksUp (store : Store) (task : Task) (link : Link) (host : Host)
    (drawn : List Record) : Prop extends task.JoinsShown store link host drawn where
  localColumn : link.localKey ∈ task.joinColumns
  tells : ∀ row ∈ drawn, ∀ other ∈ store.rows task.model, ∀ key value,
    row.get? link.referencedKey = some key → other.get? link.localKey = some value → key.Tells value

section

variable {catalog : Catalog} {store : Store} {task : Task} {link : Link} {host : Host}
  {drawn : List Record} {row : Record} {key : Json}

theorem Task.Below.looksUp (htells : store.Tells catalog)
    (hbelow : task.Below catalog (some host.task)) (hshows : host.Shows store drawn) :
    ∃ link, task.LooksUp store link host drawn := by
  obtain ⟨link, hlink, hlocal, hcolumn, child, hchild, parent, hparent, hchildName, hparentName,
    hjoin⟩ := hbelow.link
  have htells := htells child hchild parent hparent link hjoin
  rw [hchildName, hparentName] at htells
  exact ⟨link, ⟨hshows, hlink, hbelow.underBatch, hcolumn⟩, hlocal,
    fun row hmem => htells row (hshows.table row hmem)⟩

namespace Task.LooksUp

/-- The constraint taken from the key of a row lets through what carries the key. -/
theorem meets_ofKey (h : task.LooksUp store link host drawn) (hrow : row ∈ drawn)
    (hkey : row.get? link.referencedKey = some key) {child : Record}
    (hchild : child ∈ store.rows task.model) :
    child.meets link.localKey ((Constraint.ofKey? key).getD (.anyOf [])) =
      (key.isKey && child.joins link.localKey key) := by
  unfold Record.meets Record.joins
  cases hvalue : child.get? link.localKey with
  | none => simp
  | some value =>
    have htells := h.tells row hrow child hchild key value hkey hvalue
    rw [Json.Tells] at htells
    rw [Bool.eq_iff_iff, htells]
    simp

/-- Below one row the join constraint is taken from its key. -/
theorem hostConstraint_single (h : task.LooksUp store link host drawn)
    (hsingle : host.task.batch.isBatch = false) (hrow : row ∈ drawn) :
    task.hostConstraint link host =
      ((row.get? link.referencedKey).bind Constraint.ofKey?).getD (.anyOf []) := by
  obtain ⟨only, rfl, hrecord⟩ := h.shows.exists_single hsingle
  obtain rfl := List.mem_singleton.1 hrow
  have hunder : task.batch.underBatch = false := h.underBatch.trans hsingle
  rw [Task.hostConstraint, if_neg (by simp [hunder]), JoinIndex.single?_ofOutcome, hrecord]
  simp only [h.shows.columns row hrow _ h.column]

/-- **Below one row, what is found matches its key.** -/
theorem sorted_single (h : task.LooksUp store link host drawn)
    (hsingle : host.task.batch.isBatch = false) (hrow : row ∈ drawn)
    (hkey : row.get? link.referencedKey = some key) :
    task.sorted (store.found (task.joinedTo (some host))) = store.matching task link key := by
  rw [Store.found_eq h.carried, h.hostConstraint_single hsingle hrow, hkey, Option.bind_some, Store.matching]
  refine congrArg task.sorted (List.filter_congr fun child hchild => ?_)
  rw [h.meets_ofKey hrow hkey hchild]

/-- Below one row without the column to join by, nothing is found. -/
theorem found_lacking (h : task.LooksUp store link host drawn)
    (hsingle : host.task.batch.isBatch = false) (hrow : row ∈ drawn)
    (hnone : row.get? link.referencedKey = none) :
    store.found (task.joinedTo (some host)) = [] := by
  rw [Store.found_eq h.carried, h.hostConstraint_single hsingle hrow, hnone]
  refine List.filter_eq_nil_iff.2 fun child _ => ?_
  have hmeets : child.meets link.localKey (.anyOf []) = false := by
    unfold Record.meets
    cases child.get? link.localKey <;> rfl
  simp [hmeets]

/-- **Below several rows, what is found and carries the key of one of them matches this key.** The
constraint lets through what is let through for any of the rows; if a value has the text of this
key, it is so for this one. -/
theorem sorted_batch (h : task.LooksUp store link host drawn)
    (hbatch : host.task.batch.isBatch = true) (hranks : task.Ranks (store.rows task.model))
    (hrow : row ∈ drawn) (hkey : row.get? link.referencedKey = some key) :
    (task.sorted (store.found (task.joinedTo (some host)))).filter
        (fun child => child.joins link.localKey key) = store.matching task link key := by
  rw [Store.found_eq h.carried, ← Task.filter_sorted hranks, List.filter_filter, Store.matching,
    ← Task.filter_sorted hranks]
  refine List.filter_congr fun child hmem => ?_
  have hchild : child ∈ store.rows task.model := Task.mem_sorted.1 hmem
  rw [← Bool.and_assoc]
  congr 1
  have hunder : task.batch.underBatch = true := h.underBatch.trans hbatch
  rw [Task.hostConstraint, if_pos hunder, Bool.eq_iff_iff, Bool.and_eq_true, Bool.and_eq_true]
  unfold Record.joins Record.meets
  cases hvalue : child.get? link.localKey with
  | none => simp
  | some value =>
    simp only [decide_eq_true_eq, Constraint.admits_anyOfKeys_iff]
    constructor
    · rintro ⟨hsame, other, hother, hadmits⟩
      obtain ⟨parent, hparent, hcarried⟩ := (h.shows.mem_keys h.column).1 hother
      obtain ⟨hisKey, htext⟩ := (h.tells parent hparent child hchild other value hcarried hvalue).1
        hadmits
      exact ⟨Json.isKey_congr (hsame.symm.trans htext) ▸ hisKey, hsame⟩
    · rintro ⟨hisKey, hsame⟩
      exact ⟨hsame, key, (h.shows.mem_keys h.column).2 ⟨row, hrow, hkey⟩,
        (h.tells row hrow child hchild key value hkey hvalue).2 ⟨hisKey, hsame⟩⟩

end Task.LooksUp

end

/-! ## What a visit writes for a row -/

/-- As many of some rows as a node shows for one: all for a group, the first one otherwise. -/
def Task.few {α : Type} (task : Task) (rows : List α) : List α :=
  if task.batch.isGroup then rows else rows.take 1

theorem Task.map_few {α β : Type} (task : Task) (f : α → β) (rows : List α) :
    (task.few rows).map f = task.few (rows.map f) := by
  unfold few
  split
  · rfl
  · exact List.map_take

theorem Task.pick_few (task : Task) (values : List Json) :
    Json.pick task.batch.isGroup (task.few values) = .pick task.batch.isGroup values := by
  unfold few
  cases task.batch.isGroup with
  | true => rfl
  | false => exact Json.pick_take values

theorem Task.mem_of_few {α : Type} {task : Task} {rows : List α} {row : α} (h : row ∈ task.few rows) :
    row ∈ rows := by
  unfold few at h
  split at h
  · exact h
  · exact List.mem_of_mem_take h

/-- A visit that was served from a store: it found what the store selects. -/
inductive Store.Fetches (store : Store) (host : Host) : Visit → Prop where
  | missed {stop : Stop} : store.select (stop.task.joinedTo (some host)) = .absent →
      Fetches store host (.missed stop none)
  | kept {stop : Stop} {fetched : Outcome} {inner : List Visit} :
      store.select (stop.task.joinedTo (some host)) = fetched → fetched ≠ .absent →
      Fetches store host (.kept stop fetched inner)

namespace Visit

/-- The record that a row at a position of a visit ends up as. Without an outcome there is none. -/
def shown : Visit → Record × Nat → Record
  | missed _ _, entry => entry.1
  | kept stop fetched inner, entry => shownAt stop fetched inner entry

variable {catalog : Catalog} {store : Store} {link : Link} {host : Host} {drawn : List Record}
  {visit : Visit} {position : Nat} {row : Record} {key : Json}

/-- Below one row, a visit shows all that was drawn for its task. -/
theorem valueFor_single (link : Link) (hsteady : visit.stop.task.Steady catalog store)
    (hbelow : visit.stop.task.Below catalog (some host.task))
    (hsingle : host.task.batch.isBatch = false) (hfetches : store.Fetches host visit) (key : Json) :
    visit.valueFor link visit.final key = .pick visit.stop.task.batch.isGroup
        ((store.drawn visit.stop.task (some host)).zipIdx.map fun entry => .obj (visit.shown entry)) ∧
      store.drawn visit.stop.task (some host) =
        visit.stop.task.few (visit.stop.task.sorted
          (store.found (visit.stop.task.joinedTo (some host)))) := by
  have hunder : visit.stop.task.batch.underBatch = false := hbelow.underBatch.trans hsingle
  have hgroup : visit.stop.task.batch.isBatch = visit.stop.task.batch.isGroup := by
    rw [hbelow.isBatch, hunder, Bool.or_false]
  have hdrawn : store.drawn visit.stop.task (some host) = visit.stop.task.few
      (visit.stop.task.sorted (store.found (visit.stop.task.joinedTo (some host)))) := by
    rw [Store.drawn, Task.few, hgroup]
  refine ⟨?_, hdrawn⟩
  obtain ⟨hrows, hformed, habsent⟩ := store.select_joinedTo hsteady.unpaged (some host)
  cases hfetches with
  | @missed stop hselect =>
    simp only [Visit.stop] at hgroup hdrawn habsent ⊢
    obtain ⟨hbatch, hnone⟩ := habsent hselect
    have hempty : store.drawn stop.task (some host) = [] := by
      rw [hdrawn, hnone, Task.few]
      exact ite_self _
    rw [hempty, ← hgroup, hbatch]
    rfl
  | @kept stop fetched inner hselect hpresent =>
    simp only [Visit.stop] at hunder hgroup hrows hformed ⊢
    rw [hselect] at hrows hformed
    have hfinal := toJson_final inner hrows (hformed hpresent)
    rw [hgroup] at hfinal
    rw [valueFor, if_neg (by simp [hunder])]
    exact hfinal

/-- Below several rows, a visit shows for a key what was drawn and carries the key. -/
theorem valueFor_batch (hsteady : visit.stop.task.Steady catalog store)
    (hbelow : visit.stop.task.Below catalog (some host.task))
    (hlocal : link.localKey ∈ visit.stop.task.joinColumns)
    (hbatch : host.task.batch.isBatch = true) (hfetches : store.Fetches host visit) (key : Json) :
    visit.valueFor link visit.final key = .pick visit.stop.task.batch.isGroup
        (((store.drawn visit.stop.task (some host)).zipIdx.filter fun entry =>
          entry.1.joins link.localKey key).map fun entry => .obj (visit.shown entry)) ∧
      store.drawn visit.stop.task (some host) =
        visit.stop.task.sorted (store.found (visit.stop.task.joinedTo (some host))) := by
  have hunder : visit.stop.task.batch.underBatch = true := hbelow.underBatch.trans hbatch
  have hall : visit.stop.task.batch.isBatch = true := by rw [hbelow.isBatch, hunder, Bool.or_true]
  refine ⟨?_, by rw [Store.drawn, if_pos hall]⟩
  obtain ⟨hrows, hformed, habsent⟩ := store.select_joinedTo hsteady.unpaged (some host)
  cases hfetches with
  | @missed stop hselect =>
    -- there is always a list
    simp only [Visit.stop] at hall habsent
    rw [(habsent hselect).1] at hall
    cases hall
  | @kept stop fetched inner hselect hpresent =>
    simp only [Visit.stop] at hunder hrows hsteady hlocal ⊢
    have hshows := store.shows_select hsteady.sound hsteady.unpaged hselect hpresent stop rfl
    rw [hselect] at hrows
    exact valueFor_eq hrows hunder (fun row hmem => hshows.columns row hmem _ hlocal) key

/-- **What a visit writes for a row that carries a key**: its records for the rows that match the
key, be they all that was found or some. -/
theorem exists_entries (h : visit.stop.task.LooksUp store link host drawn)
    (hsteady : visit.stop.task.Steady catalog store)
    (hbelow : visit.stop.task.Below catalog (some host.task)) (hfetches : store.Fetches host visit)
    (hrow : drawn[position]? = some row) (hkey : row.get? link.referencedKey = some key) :
    ∃ (target : Json) (entries : List (Record × Nat)), visit.stop.task.targetKey? link host position = some target ∧
      visit.valueFor link visit.final target = .pick visit.stop.task.batch.isGroup
        (entries.map fun entry => .obj (visit.shown entry)) ∧
      entries.map Prod.fst = visit.stop.task.few (store.matching visit.stop.task link key) ∧
      ∀ entry ∈ entries, (store.drawn visit.stop.task (some host))[entry.2]? = some entry.1 := by
  have hmem : row ∈ drawn := List.mem_of_getElem? hrow
  have htarget := h.targetKey? hrow
  cases hbatch : host.task.batch.isBatch with
  | false =>
    rw [hbatch, if_neg Bool.false_ne_true] at htarget
    obtain ⟨hvalue, hdrawn⟩ := valueFor_single link hsteady hbelow hbatch hfetches .null
    refine ⟨.null, _, htarget, hvalue, ?_, fun entry hentry => List.mem_zipIdx_iff_getElem?.1 hentry⟩
    rw [List.zipIdx_map_fst, hdrawn, h.sorted_single hbatch hmem hkey]
  | true =>
    rw [hbatch, if_pos rfl, hkey] at htarget
    obtain ⟨hvalue, hdrawn⟩ := valueFor_batch hsteady hbelow h.localColumn hbatch hfetches key
    refine ⟨key, visit.stop.task.few ((store.drawn visit.stop.task (some host)).zipIdx.filter fun entry =>
      entry.1.joins link.localKey key), htarget, ?_, ?_, fun entry hentry =>
      List.mem_zipIdx_iff_getElem?.1 (List.mem_of_mem_filter (Task.mem_of_few hentry))⟩
    · rw [hvalue, Task.map_few, Task.pick_few]
    · have hfilter : ∀ rows : List Record, ((rows.zipIdx.filter fun entry =>
          entry.1.joins link.localKey key).map Prod.fst) =
            rows.filter fun child => child.joins link.localKey key := by
        intro rows
        conv_rhs => rw [← List.zipIdx_map_fst 0 rows, List.filter_map]
        rfl
      rw [Task.map_few, hfilter, hdrawn, h.sorted_batch hbatch hsteady.ranks hmem hkey]

/-- What a visit writes for a row without the column to join by: nothing below several rows, and
below one row the answer of no rows. -/
theorem stitch_lacking (h : visit.stop.task.LooksUp store link host drawn)
    (hsteady : visit.stop.task.Steady catalog store)
    (hbelow : visit.stop.task.Below catalog (some host.task)) (hfetches : store.Fetches host visit)
    (hrow : drawn[position]? = some row) (hnone : row.get? link.referencedKey = none) :
    if host.task.batch.isBatch then visit.stop.task.targetKey? link host position = none
    else ∃ target, visit.stop.task.targetKey? link host position = some target ∧
      visit.valueFor link visit.final target = .pick visit.stop.task.batch.isGroup [] := by
  have htarget := h.targetKey? hrow
  split
  · next hbatch => rw [htarget, hbatch, if_pos rfl, hnone]
  · next hbatch =>
    rw [Bool.not_eq_true] at hbatch
    rw [hbatch, if_neg Bool.false_ne_true] at htarget
    obtain ⟨hvalue, hdrawn⟩ := valueFor_single link hsteady hbelow hbatch hfetches .null
    refine ⟨.null, htarget, ?_⟩
    have hnothing : visit.stop.task.sorted [] = [] :=
      List.eq_nil_iff_forall_not_mem.2 fun other hother => by simpa using Task.mem_sorted.1 hother
    have hempty : visit.stop.task.few ([] : List Record) = [] := by
      rw [Task.few]
      exact ite_self _
    rw [hvalue, hdrawn, h.found_lacking hbatch (List.mem_of_getElem? hrow) hnone, hnothing, hempty]
    rfl

end Visit

/-! ## Two records of one row -/

/-- One record of a row, and another one with more keys: the same is nested in both, but the first has
nothing for the nodes that join to a column which the row lacks, where the other one has what there
is for no rows, or nothing as well. The relation goes down into the records of the rows that match. -/
inductive Store.Shorn (store : Store) : List Branch → Record → Record → Record → Prop where
  | bare {row shown : Record} : Shorn store [] row shown shown
  | held {task : Task} {nested rest : List Branch} {row less full : Record} {link : Link} {key : Json}
      {shown : List (Record × Record × Record)} :
      Shorn store rest row less full → task.link = some link →
      row.get? link.referencedKey = some key →
      shown.map (fun x => x.1) = task.few (store.matching task link key) →
      (∀ x ∈ shown, Shorn store nested x.1 x.2.1 x.2.2) →
      Shorn store (.node task nested :: rest) row
        (less.put (Branch.node task nested).key
          (.pick task.batch.isGroup (shown.map fun x => .obj x.2.1)))
        (full.put (Branch.node task nested).key
          (.pick task.batch.isGroup (shown.map fun x => .obj x.2.2)))
  | passed {branch : Branch} {rest : List Branch} {row less full : Record} {link : Link} :
      Shorn store rest row less full → branch.root.link = some link →
      row.get? link.referencedKey = none → Shorn store (branch :: rest) row less full
  | emptied {branch : Branch} {rest : List Branch} {row less full : Record} {link : Link} :
      Shorn store rest row less full → branch.root.link = some link →
      row.get? link.referencedKey = none →
      Shorn store (branch :: rest) row less (full.put branch.key (.pick branch.root.batch.isGroup []))

/-- Where rows carry the columns to join by, nothing is left out. -/
theorem Store.Shorn.eq_of_carries {catalog : Catalog} {store : Store} (hcarries : store.Carries catalog)
    {branches : List Branch} {row less full : Record} (h : store.Shorn branches row less full)
    {parent : Task} (hfits : Branch.Fits catalog (some parent) branches)
    (hrow : row ∈ store.rows parent.model) : less = full := by
  have hlacks : ∀ {task : Task} {row : Record} {link : Link} {parent : Task},
      task.Below catalog (some parent) → row ∈ store.rows parent.model → task.link = some link →
      row.get? link.referencedKey ≠ none := by
    intro task row link parent hbelow hrow hlink hnone
    obtain ⟨other, hother, -, -, child, hchild, host, hhost, -, hhostName, hjoin⟩ := hbelow.link
    obtain rfl := Option.some.inj (hother.symm.trans hlink)
    have hhas := hcarries child hchild host hhost other hjoin row (hhostName ▸ hrow)
    rw [Keyed.has, hnone] at hhas
    cases hhas
  induction h generalizing parent with
  | bare => rfl
  | @held task nested rest row less full link key shown _ _ _ hshown _ ih ihshown =>
    cases hfits with
    | node _ _ hnested hrest =>
      rw [ih hrest hrow]
      refine congrArg (fun values => Keyed.put full _ (.pick task.batch.isGroup values))
        (List.map_congr_left fun x hx => congrArg Json.obj (ihshown x hx hnested ?_))
      have hmem : x.1 ∈ task.few (store.matching task link key) := hshown ▸ List.mem_map_of_mem hx
      exact List.mem_of_mem_filter (Task.mem_sorted.1 (Task.mem_of_few hmem))
  | passed _ hlink hnone =>
    cases hfits with
    | node hbelow _ _ _ => exact absurd hnone (hlacks hbelow hrow hlink)
  | emptied _ hlink hnone =>
    cases hfits with
    | node hbelow _ _ _ => exact absurd hnone (hlacks hbelow hrow hlink)

namespace Task.Twin

variable {task other : Task}

theorem matching_eq (h : task.Twin other) (store : Store) (link : Link) (key : Json) :
    store.matching other link key = store.matching task link key := by
  obtain ⟨kind, path, batch, rfl⟩ := h
  rfl

theorem finish_eq (h : task.Twin other) : other.finish = task.finish := by
  obtain ⟨kind, path, batch, rfl⟩ := h
  rfl

theorem fields_eq (h : task.Twin other) : other.fields = task.fields := by
  obtain ⟨kind, path, batch, rfl⟩ := h
  rfl

theorem link_eq (h : task.Twin other) : other.link = task.link := by
  obtain ⟨kind, path, batch, rfl⟩ := h
  rfl

end Task.Twin

/-- Lists that are mapped to one list are paired off. -/
theorem exists_pairs {α β γ : Type} {f : α → γ} {g : β → γ} {xs : List α} {ys : List β}
    (h : xs.map f = ys.map g) :
    ∃ pairs : List (α × β), pairs.map Prod.fst = xs ∧ pairs.map Prod.snd = ys ∧
      ∀ pair ∈ pairs, f pair.1 = g pair.2 := by
  induction xs generalizing ys with
  | nil =>
    obtain rfl := List.map_eq_nil_iff.1 h.symm
    exact ⟨[], rfl, rfl, by simp⟩
  | cons x xs ih =>
    cases ys with
    | nil => cases h
    | cons y ys =>
      obtain ⟨hfirst, hrest⟩ := List.cons.inj h
      obtain ⟨pairs, rfl, rfl, hpairs⟩ := ih hrest
      exact ⟨(x, y) :: pairs, rfl, rfl, List.forall_mem_cons.2 ⟨hfirst, hpairs⟩⟩

namespace Visit

variable {catalog : Catalog} {store : Store} {host host' : Host} {drawn drawn' : List Record}
  {visit visit' : Visit} {position position' : Nat} {row less full : Record}

/-- A visit with a key puts its value under the key of its branch. -/
theorem stitchAt_put {link : Link} {target : Json} (hlink : visit.stop.task.link = some link)
    {key : String} (hkeys : visit.stop.task.path.keys = [key])
    (htarget : visit.stop.task.targetKey? link host position = some target) (record : Record) :
    visit.stitchAt host visit.final position record =
      record.put key (visit.valueFor link visit.final target) := by
  rw [stitchAt, hlink]
  simp only [htarget]
  rw [hkeys]
  rfl

/-- **One more visit, below one row and below several.** -/
theorem shorn_stitchAt {nested rest : List Branch} (htells : store.Tells catalog)
    (htwin : visit.stop.task.NestedTwin visit'.stop.task)
    (hbelow : visit.stop.task.Below catalog (some host.task))
    (hbelow' : visit'.stop.task.Below catalog (some host'.task))
    (hsteady : visit.stop.task.Steady catalog store)
    (hsteady' : visit'.stop.task.Steady catalog store) (hfetches : store.Fetches host visit)
    (hfetches' : store.Fetches host' visit') (hshows : host.Shows store drawn)
    (hshows' : host'.Shows store drawn') (hbatch' : host'.task.batch.isBatch = true)
    (hrow : drawn[position]? = some row) (hrow' : drawn'[position']? = some row)
    (hinner : ∀ entry entry', entry.1 = entry'.1 →
      (store.drawn visit.stop.task (some host))[entry.2]? = some entry.1 →
      (store.drawn visit'.stop.task (some host'))[entry'.2]? = some entry'.1 →
      store.Shorn nested entry.1 (visit'.shown entry') (visit.shown entry))
    (hrest : store.Shorn rest row less full) :
    store.Shorn (.node visit.stop.task nested :: rest) row
      (visit'.stitchAt host' visit'.final position' less)
      (visit.stitchAt host visit.final position full) := by
  obtain ⟨link, hlooks⟩ := hbelow.looksUp htells hshows
  obtain ⟨link', hlooks'⟩ := hbelow'.looksUp htells hshows'
  have hlink : link' = link := by
    have hsame := hlooks'.carried
    rw [htwin.twin.link_eq, hlooks.carried] at hsame
    exact (Option.some.inj hsame).symm
  subst hlink
  have hkeys : visit.stop.task.path.keys = [(Branch.node visit.stop.task nested).key] :=
    (Branch.node visit.stop.task nested).keys_root (hsteady.sound.keys hsteady.unpaged)
  have hkeys' : visit'.stop.task.path.keys = [(Branch.node visit.stop.task nested).key] :=
    htwin.keys.trans hkeys
  cases hkey : row.get? link'.referencedKey with
  | none =>
    have htarget := stitch_lacking hlooks hsteady hbelow hfetches hrow hkey
    have htarget' := stitch_lacking hlooks' hsteady' hbelow' hfetches' hrow' hkey
    rw [if_pos hbatch'] at htarget'
    have hless : visit'.stitchAt host' visit'.final position' less = less := by
      rw [stitchAt, hlooks'.carried]
      simp only [htarget']
    rw [hless]
    split at htarget
    · have hfull : visit.stitchAt host visit.final position full = full := by
        rw [stitchAt, hlooks.carried]
        simp only [htarget]
      rw [hfull]
      exact .passed hrest hlooks.carried hkey
    · obtain ⟨target, htarget, hvalue⟩ := htarget
      rw [stitchAt_put hlooks.carried hkeys htarget, hvalue]
      exact .emptied hrest hlooks.carried hkey
  | some key =>
    obtain ⟨target, entries, htarget, hvalue, hentries, hdrawn⟩ :=
      exists_entries hlooks hsteady hbelow hfetches hrow hkey
    obtain ⟨target', entries', htarget', hvalue', hentries', hdrawn'⟩ :=
      exists_entries hlooks' hsteady' hbelow' hfetches' hrow' hkey
    have hfew : visit'.stop.task.few (store.matching visit'.stop.task link' key) =
        visit.stop.task.few (store.matching visit.stop.task link' key) := by
      rw [htwin.twin.matching_eq, Task.few, Task.few, htwin.isGroup]
    have hrows : entries.map Prod.fst = entries'.map Prod.fst := by
      rw [hentries, hentries', hfew]
    -- the two runs show the same rows, in the same order
    obtain ⟨pairs, rfl, rfl, hsame⟩ := exists_pairs hrows
    let shown : List (Record × Record × Record) := pairs.map fun pair =>
      (pair.1.1, visit'.shown pair.2, visit.shown pair.1)
    have hless : (pairs.map Prod.snd).map (fun entry => Json.obj (visit'.shown entry)) =
        shown.map fun x => .obj x.2.1 := by
      rw [List.map_map, List.map_map]
      rfl
    have hfull : (pairs.map Prod.fst).map (fun entry => Json.obj (visit.shown entry)) =
        shown.map fun x => .obj x.2.2 := by
      rw [List.map_map, List.map_map]
      rfl
    have hfst : shown.map (fun x => x.1) =
        visit.stop.task.few (store.matching visit.stop.task link' key) := by
      rw [← hentries, List.map_map, List.map_map]
      rfl
    rw [stitchAt_put hlooks.carried hkeys htarget, stitchAt_put hlooks'.carried hkeys' htarget', hvalue,
      hvalue', hless, hfull, htwin.isGroup]
    refine .held hrest hlooks.carried hkey hfst fun x hx => ?_
    obtain ⟨pair, hpair, rfl⟩ := List.mem_map.1 hx
    exact hinner pair.1 pair.2 (hsame pair hpair) (hdrawn _ (List.mem_map_of_mem hpair))
      (hdrawn' _ (List.mem_map_of_mem hpair))

end Visit

/-- The first of some visits below a host. -/
theorem Store.Serves.exists_first {store : Store} {host : Host} {task : Task}
    {nested rest : List Branch} {visits : List Visit}
    (h : store.Serves (some host) (.node task nested :: rest) visits) :
    ∃ visit more, visits = visit :: more ∧ task = visit.stop.task ∧ store.Fetches host visit ∧
      store.Serves (some host) rest more ∧
      ∀ stop fetched inner, visit = .kept stop fetched inner →
        store.Serves (some (stop.host fetched)) nested inner := by
  cases h with
  | missed hselect hrest =>
    exact ⟨_, _, rfl, rfl, .missed hselect, hrest, fun _ _ _ heq => by cases heq⟩
  | kept hselect hpresent hinner hrest =>
    refine ⟨_, _, rfl, rfl, .kept hselect hpresent, hrest, fun _ _ _ heq => ?_⟩
    cases heq
    exact hinner

/-- Where the store has nothing for a task, nothing is drawn. -/
theorem Task.Steady.drawn_absent {catalog : Catalog} {store : Store} {task : Task} {host? : Option Host}
    (h : task.Steady catalog store) (hselect : store.select (task.joinedTo host?) = .absent) :
    store.drawn task host? = [] := by
  have hrows := (store.select_joinedTo h.unpaged host?).1
  rw [hselect] at hrows
  exact List.map_eq_nil_iff.1 hrows.symm

/-- **What one row ends up as, below one row and below several.** By induction on the twins: the
records of a visit are done when they are stitched into the host. -/
theorem Store.Serves.shorn {catalog : Catalog} {store : Store} (htells : store.Tells catalog)
    {branches branches' : List Branch} (htwins : Branch.Twins branches branches') {host host' : Host}
    {visits visits' : List Visit} (h : store.Serves (some host) branches visits)
    (h' : store.Serves (some host') branches' visits')
    (hfits : Branch.Fits catalog (some host.task) branches)
    (hfits' : Branch.Fits catalog (some host'.task) branches')
    (hsteady : ∀ task ∈ Branch.tasksOf branches, task.Steady catalog store)
    (hsteady' : ∀ task ∈ Branch.tasksOf branches', task.Steady catalog store)
    (hbatch' : host'.task.batch.isBatch = true) {drawn drawn' : List Record}
    (hshows : host.Shows store drawn) (hshows' : host'.Shows store drawn') {position position' : Nat}
    {row : Record} (hrow : drawn[position]? = some row) (hrow' : drawn'[position']? = some row)
    (record : Record) :
    store.Shorn branches row (Visit.stitchAll host' visits' position' record)
      (Visit.stitchAll host visits position record) := by
  induction htwins generalizing host host' visits visits' drawn drawn' position position' row record with
  | nil =>
    cases h
    cases h'
    exact .bare
  | @node task other nested nested' rest rest' htwin _ _ ihnested ih =>
    simp only [Branch.tasksOf_node, List.mem_cons, List.mem_append] at hsteady hsteady'
    cases hfits with
    | node hbelow _ hnested hrest =>
      cases hfits' with
      | node hbelow' _ hnested' hrest' =>
        have hroot := hsteady task (Or.inl rfl)
        have hroot' := hsteady' other (Or.inl rfl)
        obtain ⟨visit, more, rfl, rfl, hfetches, hmore, hinner⟩ := h.exists_first
        obtain ⟨visit', more', rfl, rfl, hfetches', hmore', hinner'⟩ := h'.exists_first
        have hall : visit'.stop.task.batch.isBatch = true := by
          rw [hbelow'.isBatch, hbelow'.underBatch.trans hbatch', Bool.or_true]
        have hothers := ih hmore hmore' hrest hrest' (fun t ht => hsteady t (Or.inr (Or.inr ht)))
          (fun t ht => hsteady' t (Or.inr (Or.inr ht))) hbatch' hshows hshows' hrow hrow' record
        refine Visit.shorn_stitchAt htells htwin hbelow hbelow' hroot hroot' hfetches hfetches' hshows
          hshows' hbatch' hrow hrow' (fun entry entry' hsame hdrawn hdrawn' => ?_) hothers
        cases hfetches with
        | missed hselect =>
          rw [hroot.drawn_absent hselect] at hdrawn
          cases hdrawn
        | @kept stop fetched inner hselect hpresent =>
          cases hfetches' with
          | missed hselect' =>
            rw [hroot'.drawn_absent hselect'] at hdrawn'
            cases hdrawn'
          | @kept stop' fetched' inner' hselect' hpresent' =>
            have hnext := store.shows_select hroot.sound hroot.unpaged hselect hpresent stop rfl
            have hnext' := store.shows_select hroot'.sound hroot'.unpaged hselect' hpresent' stop' rfl
            have htasks : stop.task.Twin stop'.task := htwin.twin
            rw [Visit.shown, Visit.shown, Visit.shownAt, Visit.shownAt, ← hsame, htasks.finish_eq,
              htasks.fields_eq]
            exact ihnested (hinner _ _ _ rfl) (hinner' _ _ _ rfl) hnested hnested'
              (fun t ht => hsteady t (Or.inr (Or.inl ht))) (fun t ht => hsteady' t (Or.inr (Or.inl ht)))
              hall hnext hnext' hdrawn (hsame ▸ hdrawn') _

/-! ## The law -/

section

variable {catalog : Catalog} {store : Store} {task other : Task}

theorem Task.Twin.unpaged (h : task.Twin other) (hunpaged : task.Unpaged) : other.Unpaged := by
  obtain ⟨kind, path, batch, rfl⟩ := h
  exact hunpaged

theorem Task.Twin.ranks (h : task.Twin other) (hranks : task.Ranks (store.rows task.model)) :
    other.Ranks (store.rows other.model) := by
  obtain ⟨kind, path, batch, rfl⟩ := h
  exact hranks

/-- Twins at the top find the same rows. -/
theorem Task.Twin.sorted_found (h : task.Twin other) (store : Store) :
    other.sorted (store.found (other.joinedTo none)) = task.sorted (store.found (task.joinedTo none)) := by
  obtain ⟨kind, path, batch, rfl⟩ := h
  rfl

/-- A node alone at the top shows what was drawn for it. -/
theorem Store.Serves.exists_top {nested : List Branch} {visits : List Visit}
    (h : store.Serves none [.node task nested] visits) (hsteady : task.Steady catalog store) :
    ∃ visit, visits = [visit] ∧ visit.stop.task = task ∧
      visit.final.toJson = .pick task.batch.isBatch
        ((store.drawn task none).zipIdx.map fun entry => .obj (visit.shown entry)) ∧
      (store.drawn task none ≠ [] → ∃ stop fetched inner, visit = .kept stop fetched inner ∧
        store.Serves (some (stop.host fetched)) nested inner ∧
        (stop.host fetched).Shows store (store.drawn task none)) := by
  obtain ⟨hrows, hformed, habsent⟩ := store.select_joinedTo hsteady.unpaged none
  cases h with
  | missed hselect hrest =>
    cases hrest
    have hempty := hsteady.drawn_absent hselect
    refine ⟨_, rfl, rfl, ?_, fun hne => absurd hempty hne⟩
    rw [hempty, (habsent hselect).1]
    rfl
  | @kept _ stop fetched _ _ inner _ hselect hpresent hinner hrest =>
    cases hrest
    have hshows := store.shows_select hsteady.sound hsteady.unpaged hselect hpresent stop rfl
    rw [hselect] at hrows hformed
    exact ⟨_, rfl, rfl, Visit.toJson_final inner hrows (hformed hpresent),
      fun _ => ⟨stop, fetched, inner, rfl, hinner, hshows⟩⟩

end

namespace Engine

/-- A run of one node that nothing is reported of gives what the node shows. -/
theorem run_single {catalog : Catalog} (hmemory : catalog.InMemory) {store : Store} {key : String}
    {body : Json} {task : Task} {nested : List Branch}
    (hforest : catalog.forest [(key, body)] = [.node task nested])
    (herrors : (catalog.plan [(key, body)]).errors = [])
    (hsteady : ∀ task ∈ Branch.tasksOf (catalog.forest [(key, body)]), task.Steady catalog store) :
    ∃ visit, store.Serves none (catalog.forest [(key, body)]) [visit] ∧ visit.stop.task = task ∧
      ((ofCatalog catalog).run .query [(key, body)]).run store =
        (⟨.obj [(key, visit.final.toJson)], []⟩, store) := by
  have hsegments := (catalog.compiles_forest [(key, body)]).segments
  obtain ⟨visits, hserves, hrun⟩ := run_serves herrors
    (fun t ht => (hsteady t ht).sound.inMemory hmemory) store
  have hroot : task.Steady catalog store :=
    hsteady task (by rw [hforest, Branch.tasksOf_node]; exact List.mem_cons_self ..)
  obtain ⟨visit, rfl, hvisit, -⟩ := (hforest ▸ hserves).exists_top hroot
  have hkeys : visit.stop.task.path.keys = [key] := by
    obtain ⟨name, hname⟩ := hroot.sound.keys hroot.unpaged
    rw [hforest] at hsegments
    have hhead : task.path.keys.head? = some key := (List.cons.inj hsegments).1
    rw [hname] at hhead
    rw [hvisit, hname, Option.some.inj hhead]
  refine ⟨visit, hserves, hvisit, ?_⟩
  rw [hrun, List.foldl_cons, List.foldl_nil, Visit.collectInto, hkeys]
  rfl

/-- A run that reports nothing is that of a plan that reports nothing. -/
theorem errors_of_run {catalog : Catalog} {request : Record} {store : Store} {data : Json}
    (hrun : (((ofCatalog catalog).run .query request).run store).1 = ⟨data, []⟩) :
    (catalog.plan request).errors = [] := by
  obtain ⟨visits, final, store', hfollows, hresult⟩ :=
    run_follows (ofCatalog catalog) .query request store
  rw [hresult] at hrun
  have hreported := hfollows.errors
  rw [(Resolution.mk.inj hrun).2] at hreported
  exact (List.append_eq_nil_iff.1 hreported.symm).1

/-- Twins of steady tasks are steady. -/
theorem steady_of_twins {catalog : Catalog} {store : Store} {request : Record} {task other : Task}
    {nested nested' : List Branch} (hsound : ∀ t ∈ (catalog.plan request).tasks, t.Sound catalog)
    (hforest : catalog.forest request = [.node other nested']) (htwin : task.Twin other)
    (htwins : Branch.Twins nested nested')
    (hsteady : ∀ t ∈ Branch.tasksOf [.node task nested], t.Steady catalog store) :
    ∀ t ∈ Branch.tasksOf (catalog.forest request), t.Steady catalog store := by
  intro t hmem
  have hexists : ∃ twin ∈ Branch.tasksOf [.node task nested], twin.Twin t := by
    rw [hforest, Branch.tasksOf_node, List.mem_cons, Branch.tasksOf_nil, List.append_nil] at hmem
    rw [Branch.tasksOf_node, Branch.tasksOf_nil, List.append_nil]
    rcases hmem with rfl | hmem
    · exact ⟨task, List.mem_cons_self .., htwin⟩
    · obtain ⟨twin, htwin, hother⟩ := htwins.exists_twin hmem
      exact ⟨twin, List.mem_cons_of_mem _ htwin, hother⟩
  obtain ⟨twin, htwinMem, hother⟩ := hexists
  have hsteady := hsteady twin htwinMem
  exact ⟨hsound t (by rwa [Catalog.plan_tasks]), hother.unpaged hsteady.unpaged,
    hother.ranks hsteady.ranks⟩

/-- The list under the group name of a model goes on from a record under the name of the model: its
first record is this one, but for what a list passes over. Both are of one row, the first that is
found for the node. -/
def LeadsList (catalog : Catalog) (store : Store) (model : Model) (body : Json) (record : Record) :
    Prop :=
  ∃ task nested row first rest, catalog.forest [(model.name, body)] = [.node task nested] ∧
    (task.sorted (store.found task)).head? = some row ∧
    ((ofCatalog catalog).run .query [(model.groupName, body)]).run store =
      (⟨.obj [(model.groupName, .arr (.obj first :: rest))], []⟩, store) ∧
    store.Shorn nested row first record ∧ (store.Carries catalog → first = record)

/-- **A record is the first of the list.** If a node gives a record under the name of its model, and
nothing is reported, then nothing is reported under the group name either, and the list begins with
this record, but for what is nested in rows without the column to join by. -/
theorem first_of_group {catalog : Catalog} (haccepted : catalog.Accepted) (hmemory : catalog.InMemory)
    {store : Store} (htells : store.Tells catalog) {model : Model} (hmodel : model ∈ catalog.models)
    {body : Json} (hbody : body.Distinct)
    (hdirective : body.get? catalog.settings.keys.model = none)
    (hunpaged : ∀ task ∈ (catalog.plan [(model.name, body)]).tasks, task.Unpaged)
    (hranks : ∀ task ∈ (catalog.plan [(model.name, body)]).tasks, task.Ranks (store.rows task.model))
    {data : Json} {record : Record}
    (hrun : (((ofCatalog catalog).run .query [(model.name, body)]).run store).1 = ⟨data, []⟩)
    (hdata : data.get? model.name = some (.obj record)) :
    LeadsList catalog store model body record := by
  have hdistinct : ∀ key, (Json.obj [(key, body)]).Distinct := by
    intro key
    simp [Json.Distinct, Json.DistinctFields, Keyed.keys, hbody]
  have herrors := errors_of_run hrun
  obtain ⟨task, other, nested, nested', hforest, hforest', herrors', htwin, hsingle, hbatch, htwins⟩ :=
    Catalog.twin_forest haccepted hmodel hdirective herrors
  have hsteady : ∀ t ∈ Branch.tasksOf (catalog.forest [(model.name, body)]), t.Steady catalog store := by
    intro t hmem
    rw [← Catalog.plan_tasks] at hmem
    exact ⟨Catalog.sound_plan haccepted (hdistinct _) herrors t hmem, hunpaged t hmem, hranks t hmem⟩
  have hsteady' := steady_of_twins (Catalog.sound_plan haccepted (hdistinct _) herrors') hforest' htwin
    htwins (hforest ▸ hsteady)
  obtain ⟨visit, hserves, hvisit, hresult⟩ := run_single hmemory hforest herrors hsteady
  obtain ⟨visit', hserves', hvisit', hresult'⟩ := run_single hmemory hforest' herrors' hsteady'
  have hfits := catalog.fits_forest [(model.name, body)]
  have hfits' := catalog.fits_forest [(model.groupName, body)]
  rw [hforest] at hserves hsteady hfits
  rw [hforest'] at hserves' hsteady' hfits'
  simp only [Branch.tasksOf_node, Branch.tasksOf_nil, List.append_nil, List.mem_cons] at hsteady hsteady'
  -- the record is that of the one row drawn
  have hrecord : visit.final.toJson = .obj record := by
    rw [hresult] at hrun
    obtain rfl : _ = data := congrArg Resolution.data hrun
    simpa [Json.get?, Keyed.get?_cons] using hdata
  obtain ⟨_, heq, -, hfinal, hkept⟩ := hserves.exists_top (hsteady task (Or.inl rfl))
  obtain rfl := List.singleton_inj.1 heq
  obtain ⟨_, heq', -, hfinal', hkept'⟩ := hserves'.exists_top (hsteady' other (Or.inl rfl))
  obtain rfl := List.singleton_inj.1 heq'
  have hdrawn : store.drawn task none = (task.sorted (store.found task)).take 1 :=
    if_neg (by simp [hsingle])
  have hdrawn' : store.drawn other none = task.sorted (store.found task) :=
    (if_pos hbatch).trans (htwin.sorted_found store)
  cases hrows : task.sorted (store.found task) with
  | nil =>
    rw [hdrawn, hrows, hsingle, hrecord] at hfinal
    cases hfinal
  | cons row rest =>
    rw [hrows] at hdrawn hdrawn'
    have hdrawn : store.drawn task none = [row] := hdrawn
    obtain ⟨stop, fetched, inner, rfl, hinner, hshows⟩ := hkept (by rw [hdrawn]; exact List.cons_ne_nil _ _)
    obtain ⟨stop', fetched', inner', rfl, hinner', hshows'⟩ :=
      hkept' (by rw [hdrawn']; exact List.cons_ne_nil _ _)
    obtain rfl : stop.task = task := hvisit
    obtain rfl : stop'.task = other := hvisit'
    rw [hdrawn, hsingle, hrecord] at hfinal
    have hfinal : Json.obj record = .obj (Visit.shownAt stop fetched inner (row, 0)) := hfinal
    obtain rfl := Json.obj.inj hfinal
    have hmem : row ∈ store.drawn stop.task none := hdrawn ▸ List.mem_singleton_self row
    have hrow : row ∈ store.rows stop.task.model := Store.mem_rows_of_drawn hmem
    have hshorn : store.Shorn nested row (Visit.shownAt stop' fetched' inner' (row, 0))
        (Visit.shownAt stop fetched inner (row, 0)) := by
      cases hfits with
      | node _ _ hnested _ =>
        cases hfits' with
        | node _ _ hnested' _ =>
          rw [Visit.shownAt, Visit.shownAt, htwin.finish_eq, htwin.fields_eq]
          exact Store.Serves.shorn htells htwins hinner hinner' hnested hnested'
            (fun t ht => hsteady t (Or.inr ht)) (fun t ht => hsteady' t (Or.inr ht)) hbatch hshows hshows'
            (by rw [hdrawn]; rfl) (by rw [hdrawn']; rfl) _
    refine ⟨stop.task, nested, row, Visit.shownAt stop' fetched' inner' (row, 0),
      (rest.zipIdx 1).map fun entry => .obj (Visit.shownAt stop' fetched' inner' entry), hforest,
      by rw [hrows]; rfl, ?_, hshorn, fun hcarries => ?_⟩
    · rw [hresult', hfinal', hdrawn', hbatch]
      rfl
    · cases hfits with
      | node _ _ hnested _ => exact hshorn.eq_of_carries hcarries hnested hrow

end Engine

namespace Library

/-- An author with her books. -/
def ann : Json := .obj [("name", .str "Ann"), ("books", .bool true)]

/-- An author without a number, with his books. -/
def bob : Json := .obj [("name", .str "Bob"), ("books", .bool true)]

/-- Any author, with books. -/
def anybody : Json := .obj [("books", .bool true)]

/-- A node that says itself that it stands for one author. -/
def itself : Json := .obj [("@model", .str "author")]

/-- Any author, with books by their numbers. -/
def numbered : Json := .obj [("books", .obj [("@sort", .str "id")])]

/-- An author who goes by a list of numbers. -/
def joint : Store :=
  ⟨[("author", [[("id", .arr [.ofNat 1]), ("name", .str "Ann")]]),
    ("book", [[("id", .ofNat 7), ("author_id", .ofNat 1)]])]⟩

/-- Two authors, one of them with a book that has a letter for a number. -/
def lettered : Store :=
  ⟨[("author", [[("id", .ofNat 1)], [("id", .ofNat 2)]]),
    ("book", [[("id", .ofNat 0), ("author_id", .ofNat 1)], [("id", .ofNat 1), ("author_id", .ofNat 1)],
      [("id", .str "x"), ("author_id", .ofNat 2)], [("id", .ofNat 0), ("author_id", .ofNat 1)]])]⟩

end Library

theorem Engine.first_of_group_library :
    Store.Tells Library.catalog Library.stocked ∧
    ∃ data record,
      (((ofCatalog Library.catalog).run .query [("author", Library.ann)]).run Library.stocked).1 =
        ⟨data, []⟩ ∧ data.get? "author" = some (.obj record) ∧
      LeadsList Library.catalog Library.stocked Library.author Library.ann record := by
  have hdistinct : Library.ann.Distinct := by
    simp [Library.ann, Json.Distinct, Json.DistinctFields, Keyed.keys]
  have hpages : (Library.catalog.plan [("author", Library.ann)]).tasks.map Task.page = [none, none] := rfl
  have hrun : (((ofCatalog Library.catalog).run .query [("author", Library.ann)]).run
      Library.stocked).1 = ⟨.obj [("author", .obj [("id", .ofNat 1), ("name", .str "Ann"),
        ("books", .arr [.obj [("id", .ofNat 7), ("author_id", .ofNat 1)]])])], []⟩ := by
    cbv
  exact ⟨Library.stocked_plain.tells, _, _, hrun, rfl, first_of_group Library.accepted Library.inMemory
    Library.stocked_plain.tells (List.mem_cons_self ..) hdistinct rfl
    (Library.unpaged_of_pages hpages (by simp))
    (fun task _ => (Library.stocked_sortsPlainly task).ranks) hrun rfl⟩

/-- A record under the name of a model is the first of the list under the group name, without
exceptions. -/
def Engine.AlwaysFirst (catalog : Catalog) (store : Store) (model : Model) (body : Json) : Prop :=
  ∀ data record,
    (((ofCatalog catalog).run .query [(model.name, body)]).run store).1 = ⟨data, []⟩ →
    data.get? model.name = some (.obj record) →
    ∃ data' first rest,
      (((ofCatalog catalog).run .query [(model.groupName, body)]).run store).1 = ⟨data', []⟩ ∧
      data'.get? model.groupName = some (.arr (first :: rest)) ∧ first.same (.obj record) = true

/-- Two runs in which the record is not the first of the list. -/
theorem Engine.not_alwaysFirst {catalog : Catalog} {store : Store} {model : Model} {body value : Json}
    {record : Record}
    (hrun : (((ofCatalog catalog).run .query [(model.name, body)]).run store).1 =
      ⟨.obj [(model.name, .obj record)], []⟩)
    (hgroup : (((ofCatalog catalog).run .query [(model.groupName, body)]).run store).1 =
      ⟨.obj [(model.groupName, value)], []⟩)
    (hvalue : ∀ first rest, value = .arr (first :: rest) → first.same (.obj record) = false) :
    ¬ AlwaysFirst catalog store model body := by
  intro h
  have hget : ∀ (key : String) (value : Json), (Json.obj [(key, value)]).get? key = some value := by
    intro key value
    simp [Json.get?, Keyed.get?_cons]
  obtain ⟨data, first, rest, hlist, hfirst, hsame⟩ := h _ _ hrun (hget _ _)
  rw [hgroup] at hlist
  obtain rfl := (Resolution.mk.inj hlist).1
  rw [hget] at hfirst
  rw [hvalue first rest (Option.some.inj hfirst)] at hsame
  cases hsame

/-- The exceptions are needed: rows without the column to join by, keys that are lists, nodes that
name their model themselves, and sorts by a column that does not rank the rows. -/
theorem Engine.not_first_of_group :
    ¬ AlwaysFirst Library.catalog Library.stocked Library.author Library.bob ∧
    ¬ AlwaysFirst Library.catalog Library.joint Library.author Library.anybody ∧
    ¬ AlwaysFirst Library.catalog Library.stocked Library.author Library.itself ∧
    ¬ AlwaysFirst Library.catalog Library.lettered Library.author Library.numbered := by
  refine ⟨?_, ?_, ?_, ?_⟩
  · have hrun : (((ofCatalog Library.catalog).run .query [("author", Library.bob)]).run
        Library.stocked).1 = ⟨.obj [("author", .obj [("name", .str "Bob"), ("books", .arr [])])], []⟩ := by
      cbv
    have hgroup : (((ofCatalog Library.catalog).run .query [("authors", Library.bob)]).run
        Library.stocked).1 = ⟨.obj [("authors", .arr [.obj [("name", .str "Bob")]])], []⟩ := by
      cbv
    refine not_alwaysFirst hrun hgroup fun first rest hvalue => ?_
    obtain ⟨rfl, -⟩ := List.cons.inj (Json.arr.inj hvalue)
    rfl
  · have hrun : (((ofCatalog Library.catalog).run .query [("author", Library.anybody)]).run
        Library.joint).1 = ⟨.obj [("author", .obj [("id", .arr [.ofNat 1]), ("name", .str "Ann"),
          ("books", .arr [.obj [("id", .ofNat 7), ("author_id", .ofNat 1)]])])], []⟩ := by
      cbv
    have hgroup : (((ofCatalog Library.catalog).run .query [("authors", Library.anybody)]).run
        Library.joint).1 = ⟨.obj [("authors", .arr [.obj [("id", .arr [.ofNat 1]), ("name", .str "Ann"),
          ("books", .arr [])]])], []⟩ := by
      cbv
    refine not_alwaysFirst hrun hgroup fun first rest hvalue => ?_
    obtain ⟨rfl, -⟩ := List.cons.inj (Json.arr.inj hvalue)
    decide +kernel
  · have hrun : (((ofCatalog Library.catalog).run .query [("author", Library.itself)]).run
        Library.stocked).1 = ⟨.obj [("author", .obj [("id", .ofNat 1), ("name", .str "Ann")])], []⟩ := by
      cbv
    have hgroup : (((ofCatalog Library.catalog).run .query [("authors", Library.itself)]).run
        Library.stocked).1 = ⟨.obj [("authors", .obj [("id", .ofNat 1), ("name", .str "Ann")])], []⟩ := by
      cbv
    refine not_alwaysFirst hrun hgroup fun first rest hvalue => ?_
    cases hvalue
  · -- a book that is not told apart from the others keeps them from being put in order
    have hrun : (((ofCatalog Library.catalog).run .query [("author", Library.numbered)]).run
        Library.lettered).1 = ⟨.obj [("author", .obj [("id", .ofNat 1),
          ("books", .arr [.obj [("id", .ofNat 0), ("author_id", .ofNat 1)],
            .obj [("id", .ofNat 0), ("author_id", .ofNat 1)],
            .obj [("id", .ofNat 1), ("author_id", .ofNat 1)]])])], []⟩ := by
      cbv
    have hgroup : (((ofCatalog Library.catalog).run .query [("authors", Library.numbered)]).run
        Library.lettered).1 = ⟨.obj [("authors", .arr [.obj [("id", .ofNat 1),
          ("books", .arr [.obj [("id", .ofNat 0), ("author_id", .ofNat 1)],
            .obj [("id", .ofNat 1), ("author_id", .ofNat 1)],
            .obj [("id", .ofNat 0), ("author_id", .ofNat 1)]])],
          .obj [("id", .ofNat 2),
            ("books", .arr [.obj [("id", .str "x"), ("author_id", .ofNat 2)]])]])], []⟩ := by
      cbv
    refine not_alwaysFirst hrun hgroup fun first rest hvalue => ?_
    obtain ⟨rfl, -⟩ := List.cons.inj (Json.arr.inj hvalue)
    decide +kernel

end NestedQuery
