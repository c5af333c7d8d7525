import Mathlib.Data.List.Nodup
import Mathlib.Data.List.Pairwise
import NestedQuery.Proofs.Json.Sameness
import NestedQuery.Resolve.Shape
/-!
# What a listing of fields shows

A record is cut to the sources of its fields when it is fetched, loses
the temporary ones later, and has its aliased fields renamed one after
the other. If no name is taken twice by a listing (`Listing`), all this
comes to one reading of the row as it stands in the table: each listed
field shows the value of its source under its alias or its source
(`Task.get?_finish`).
-/

namespace NestedQuery

/-! ## Listings -/

/-- The names that a field takes: its source, and its alias if it has one. -/
def Field.names (field : Field) : List String := field.source :: field.alias?.toList

/-- The fields of a listing that are not temporary. -/
def shown (fields : List Field) : List Field := fields.filter fun field => !field.temporary

/-- A listing of fields in which no name is taken twice. Temporary fields have no alias, and are
for columns that nobody else takes the name of. -/
structure Listing (fields : List Field) : Prop where
  nodup : ((shown fields).flatMap Field.names).Nodup
  plain : ∀ field ∈ fields, field.temporary = true → field.alias? = none
  apart : ∀ field ∈ fields, field.temporary = true → ∀ other ∈ shown fields,
    field.source ∉ other.names

/-- The entry that a field makes of a row. A missing value is shown as null under an alias and not
at all otherwise. -/
def Field.shows (row : Record) (field : Field) : Option (String × Json) :=
  match field.alias? with
  | some name => some (name, (row.get? field.source).getD .null)
  | none => (row.get? field.source).map fun value => (field.source, value)

/-- What a task shows of a row: its listed fields, or all of it if nothing is listed. -/
def Task.view (task : Task) (row : Record) : Record :=
  match task.fields with
  | none => row
  | some fields => (shown fields).filterMap (Field.shows row)

namespace Field

theorem source_mem_names (field : Field) : field.source ∈ field.names := List.mem_cons_self ..

theorem alias_mem_names {field : Field} {name : String} (h : field.alias? = some name) :
    name ∈ field.names := by
  simp [names, h]

theorem shows_mem_names {row : Record} {field : Field} {entry : String × Json}
    (h : field.shows row = some entry) : entry.1 ∈ field.names := by
  unfold shows at h
  split at h
  · next name hname =>
    obtain rfl := Option.some.inj h
    exact alias_mem_names hname
  · obtain ⟨value, -, rfl⟩ := Option.map_eq_some_iff.1 h
    exact field.source_mem_names

end Field

theorem mem_shown {fields : List Field} {field : Field} :
    field ∈ shown fields ↔ field ∈ fields ∧ field.temporary = false := by
  rw [shown, List.mem_filter, Bool.not_eq_true']

namespace Listing

variable {fields : List Field}

/-- A name is taken by one field only. -/
theorem eq_of_mem_names (h : Listing fields) {field other : Field} (hfield : field ∈ shown fields)
    (hother : other ∈ shown fields) {name : String} (hname : name ∈ field.names)
    (hname' : name ∈ other.names) : field = other := by
  by_contra hne
  have hpairwise := (List.nodup_flatMap.1 h.nodup).2
  have hsymm : Std.Symm (Function.onFun List.Disjoint Field.names) :=
    ⟨fun _ _ hdisjoint _ ha hb => hdisjoint hb ha⟩
  exact hpairwise.forall hfield hother hne hname hname'

theorem nodup_shows (h : Listing fields) (row : Record) :
    (Keyed.keys ((shown fields).filterMap (Field.shows row))).Nodup := by
  have hpairwise := (List.nodup_flatMap.1 h.nodup).2
  rw [Keyed.keys, List.Nodup, List.pairwise_map]
  refine List.Pairwise.filterMap (Field.shows row) (fun field other hdisjoint entry hentry entry'
    hentry' heq => ?_) hpairwise
  exact hdisjoint (Field.shows_mem_names hentry) (heq ▸ Field.shows_mem_names hentry')

end Listing

/-! ## Each step seen by a look-up -/

theorem Keyed.get?_ofWrites {α : Type} (writes : Keyed α) (key : String) :
    get? (ofWrites writes) key = get? writes.reverse key := by
  have hfold : ∀ start : Keyed α,
      get? (writes.foldl (fun entries write => put entries write.1 write.2) start) key =
        (get? writes.reverse key).or (get? start key) := by
    induction writes with
    | nil => intro start; rfl
    | cons write rest ih =>
      intro start
      obtain ⟨k, v⟩ := write
      rw [List.foldl_cons, ih, List.reverse_cons, get?_append, get?_put, get?_cons, get?_nil]
      by_cases heq : k = key <;> cases get? rest.reverse key <;> simp [heq]
  have hempty := hfold []
  rw [get?_nil, Option.or_none] at hempty
  exact hempty

/-- What is fetched of a row: the values of the listed sources. -/
theorem Record.get?_project (row : Record) (fields : List Field) (key : String) :
    (Record.project row (some fields)).get? key =
      if key ∈ fields.map Field.source then row.get? key else none := by
  have hwrites : ∀ fields : List Field,
      Keyed.get? (fields.filterMap fun field =>
        (row.get? field.source).map fun value => (field.source, value)) key =
          if key ∈ fields.map Field.source then row.get? key else none := by
    intro fields
    induction fields with
    | nil => rfl
    | cons field rest ih =>
      rw [List.filterMap_cons, List.map_cons]
      by_cases heq : field.source = key
      · subst heq
        cases hvalue : row.get? field.source with
        | none => simp [ih, hvalue]
        | some value => simp [Keyed.get?_cons]
      · have hne : key ≠ field.source := Ne.symm heq
        cases row.get? field.source with
        | none => simp [ih, hne]
        | some value => simp [ih, hne, heq, Keyed.get?_cons]
  rw [Record.project, Keyed.get?_ofWrites, ← List.filterMap_reverse, hwrites]
  simp

theorem Record.get?_rename (record : Record) (source name key : String) :
    (Record.rename record source name).get? key =
      if name = key then some ((record.get? source).getD .null)
      else if source = key then none else record.get? key := by
  rw [Record.rename, Keyed.get?_put, Keyed.get?_erase]

/-- What is left when some keys are dropped. -/
theorem Record.get?_foldl_erase (keys : List String) (record : Record) (key : String) :
    Keyed.get? (keys.foldl Keyed.erase record) key =
      if key ∈ keys then none else record.get? key := by
  induction keys generalizing record with
  | nil => simp
  | cons first rest ih =>
    rw [List.foldl_cons, ih, Keyed.get?_erase]
    by_cases hrest : key ∈ rest
    · simp [hrest]
    · by_cases heq : first = key
      · simp [heq]
      · simp [hrest, heq, Ne.symm heq]

/-- What is shown when some keys are renamed, no name among them being there twice. -/
theorem Record.get?_foldl_rename {pairs : List (String × String)}
    (h : (pairs.flatMap fun pair => [pair.1, pair.2]).Nodup) (record : Record) (key : String) :
    (pairs.foldl (fun record pair => Record.rename record pair.1 pair.2) record).get? key =
      match pairs.find? fun pair => pair.2 = key with
      | some pair => some ((record.get? pair.1).getD .null)
      | none => if key ∈ pairs.map Prod.fst then none else record.get? key := by
  induction pairs generalizing record with
  | nil => rfl
  | cons first rest ih =>
    obtain ⟨source, name⟩ := first
    rw [List.flatMap_cons, List.nodup_append] at h
    obtain ⟨hown, hrest, hdisjoint⟩ := h
    have hsource : ∀ pair ∈ rest, pair.1 ≠ source ∧ pair.2 ≠ source ∧ pair.1 ≠ name ∧ pair.2 ≠ name := by
      intro pair hpair
      have hfst : pair.1 ∈ rest.flatMap fun pair => [pair.1, pair.2] :=
        List.mem_flatMap.2 ⟨pair, hpair, by simp⟩
      have hsnd : pair.2 ∈ rest.flatMap fun pair => [pair.1, pair.2] :=
        List.mem_flatMap.2 ⟨pair, hpair, by simp⟩
      exact ⟨(hdisjoint source (by simp) _ hfst).symm, (hdisjoint source (by simp) _ hsnd).symm,
        (hdisjoint name (by simp) _ hfst).symm, (hdisjoint name (by simp) _ hsnd).symm⟩
    rw [List.foldl_cons, ih hrest]
    by_cases hname : name = key
    · subst hname
      have hnone : rest.find? (fun pair => pair.2 = name) = none := by
        rw [List.find?_eq_none]
        intro pair hpair
        simpa using (hsource pair hpair).2.2.2
      have hmem : name ∉ rest.map Prod.fst := by
        intro hmem
        obtain ⟨pair, hpair, heq⟩ := List.mem_map.1 hmem
        exact (hsource pair hpair).2.2.1 heq
      rw [hnone, List.find?_cons_of_pos (by simp)]
      simp only [if_neg hmem, Record.get?_rename, if_pos]
    · rw [List.find?_cons_of_neg (by simpa using hname)]
      cases hfind : rest.find? fun pair => pair.2 = key with
      | some pair =>
        have hpair := hsource pair (List.mem_of_find?_eq_some hfind)
        simp only [Record.get?_rename, if_neg hpair.1.symm, if_neg hpair.2.2.1.symm]
      | none =>
        simp only [Record.get?_rename, if_neg hname, List.map_cons, List.mem_cons]
        by_cases hkey : source = key
        · simp [hkey]
        · have hne : key ≠ source := Ne.symm hkey
          simp only [hkey, hne, if_false, false_or]

/-! ## The final shape -/

/-- The names that the aliased fields take are among those of the listing. -/
theorem Listing.nodup_aliases {fields : List Field} (h : Listing fields) :
    ((fields.filterMap fun field => field.alias?.map fun name => (field.source, name)).flatMap
      fun pair => [pair.1, pair.2]).Nodup := by
  obtain ⟨hnodup, hplain, -⟩ := h
  refine List.Nodup.sublist ?_ hnodup
  clear hnodup
  induction fields with
  | nil => exact List.Sublist.refl _
  | cons field rest ih =>
    obtain ⟨hfield, hrest⟩ := List.forall_mem_cons.1 hplain
    have hrest := ih hrest
    rw [List.filterMap_cons]
    cases htemporary : field.temporary with
    | true =>
      rw [hfield htemporary, shown, List.filter_cons_of_neg (by simp [htemporary])]
      exact hrest
    | false =>
      rw [shown, List.filter_cons_of_pos (by simp [htemporary]), List.flatMap_cons]
      cases halias : field.alias? with
      | none => exact hrest.trans (List.sublist_append_right _ _)
      | some name =>
        have hnames : field.names = [field.source, name] := by simp [Field.names, halias]
        rw [hnames]
        exact hrest.append_left _

/-- What a listing shows under a key that one of its fields takes. -/
theorem Listing.get?_shows {fields : List Field} (h : Listing fields) (row : Record) {field : Field}
    (hmem : field ∈ shown fields) {key : String} (hkey : key ∈ field.names) :
    Keyed.get? ((shown fields).filterMap (Field.shows row)) key =
      (field.shows row).bind fun entry => if entry.1 = key then some entry.2 else none := by
  refine Option.ext fun value => ?_
  constructor
  · intro hvalue
    obtain ⟨other, hother, hshows⟩ := List.mem_filterMap.1 (Keyed.mem_of_get? hvalue)
    obtain rfl := h.eq_of_mem_names hother hmem (Field.shows_mem_names hshows) hkey
    simp [hshows]
  · intro hvalue
    obtain ⟨⟨name, found⟩, hshows, hfound⟩ := Option.bind_eq_some_iff.1 hvalue
    split at hfound
    · next heq =>
      obtain rfl := heq
      obtain rfl := Option.some.inj hfound
      exact Keyed.get?_of_mem (h.nodup_shows row) (List.mem_filterMap.2 ⟨field, hmem, hshows⟩)
    · cases hfound

theorem get?_shows_none {fields : List Field} (row : Record) {key : String}
    (hkey : ∀ field ∈ shown fields, key ∉ field.names) :
    Keyed.get? ((shown fields).filterMap (Field.shows row)) key = none := by
  rw [Keyed.get?_eq_none_iff]
  intro hmem
  obtain ⟨entry, hentry, rfl⟩ := List.mem_map.1 hmem
  obtain ⟨field, hfield, hshows⟩ := List.mem_filterMap.1 hentry
  exact hkey field hfield (Field.shows_mem_names hshows)

namespace Task

variable {task : Task} {fields : List Field}

theorem mem_temporarySources (hfields : task.fields = some fields) {key : String} :
    key ∈ task.temporarySources ↔
      ∃ field ∈ fields, field.temporary = true ∧ field.source = key := by
  simp [temporarySources, hfields, and_assoc]

theorem mem_aliases (hlisting : Listing fields) (hfields : task.fields = some fields)
    {pair : String × String} :
    pair ∈ task.aliases ↔
      ∃ field ∈ shown fields, field.source = pair.1 ∧ field.alias? = some pair.2 := by
  simp only [aliases, hfields, Option.getD_some, List.mem_filterMap, Option.map_eq_some_iff]
  constructor
  · rintro ⟨field, hfield, name, hname, rfl⟩
    refine ⟨field, mem_shown.2 ⟨hfield, ?_⟩, rfl, hname⟩
    cases htemporary : field.temporary with
    | false => rfl
    | true => rw [hlisting.plain field hfield htemporary] at hname; cases hname
  · rintro ⟨field, hfield, hsource, hname⟩
    exact ⟨field, (mem_shown.1 hfield).1, pair.2, hname, by rw [hsource]⟩

/-- What was fetched of a row, once the temporary fields are dropped. -/
theorem get?_cleaned (hlisting : Listing fields) (hfields : task.fields = some fields)
    (row : Record) {field : Field} (hmem : field ∈ shown fields) :
    Keyed.get? (task.temporarySources.foldl Keyed.erase (Record.project row (some fields)))
      field.source = row.get? field.source := by
  have hsource : field.source ∈ fields.map Field.source :=
    List.mem_map_of_mem (mem_shown.1 hmem).1
  have htemporary : field.source ∉ task.temporarySources := by
    rw [mem_temporarySources hfields]
    rintro ⟨other, hother, htemporary, heq⟩
    exact hlisting.apart other hother htemporary field hmem (heq ▸ field.source_mem_names)
  rw [Record.get?_foldl_erase, if_neg htemporary, Record.get?_project, if_pos hsource]

/-- Nothing but a source that is shown outlasts the dropping of the temporary fields. -/
theorem get?_cleaned_none (hfields : task.fields = some fields) (row : Record) {key : String}
    (hkey : ∀ field ∈ shown fields, field.source ≠ key) :
    Keyed.get? (task.temporarySources.foldl Keyed.erase (Record.project row (some fields))) key =
      none := by
  rw [Record.get?_foldl_erase, Record.get?_project]
  by_cases htemporary : key ∈ task.temporarySources
  · rw [if_pos htemporary]
  · have hunlisted : key ∉ fields.map Field.source := by
      intro hlisted
      obtain ⟨field, hmem, rfl⟩ := List.mem_map.1 hlisted
      cases hdropped : field.temporary with
      | true => exact htemporary ((mem_temporarySources hfields).2 ⟨field, hmem, hdropped, rfl⟩)
      | false => exact hkey field (mem_shown.2 ⟨hmem, hdropped⟩) rfl
    rw [if_neg htemporary, if_neg hunlisted]

/-- The source of a field that is shown is renamed if the field has an alias. -/
theorem source_mem_aliases (hlisting : Listing fields) (hfields : task.fields = some fields)
    {field : Field} (hmem : field ∈ shown fields) :
    field.source ∈ task.aliases.map Prod.fst ↔ field.alias?.isSome := by
  constructor
  · intro hrenamed
    obtain ⟨pair, hpair, heq⟩ := List.mem_map.1 hrenamed
    obtain ⟨other, hother, hsame, halias⟩ := (mem_aliases hlisting hfields).1 hpair
    obtain rfl := hlisting.eq_of_mem_names hother hmem other.source_mem_names
      (by rw [hsame, heq]; exact field.source_mem_names)
    rw [halias, Option.isSome_some]
  · intro halias
    obtain ⟨name, hname⟩ := Option.isSome_iff_exists.1 halias
    exact List.mem_map.2 ⟨(field.source, name),
      (mem_aliases hlisting hfields).2 ⟨field, hmem, rfl, hname⟩, rfl⟩

/-- **The final shape of what was fetched of a row is what the task shows of it.** -/
theorem get?_finish (hlisting : ∀ fields, task.fields = some fields → Listing fields) (row : Record)
    (key : String) :
    (task.finish (Record.project row task.fields)).get? key = (task.view row).get? key := by
  cases hfields : task.fields with
  | none => simp [finish, view, temporarySources, aliases, Record.project, hfields]
  | some fields =>
    have hlisting := hlisting fields hfields
    have haliases : (task.aliases.flatMap fun pair => [pair.1, pair.2]).Nodup := by
      rw [aliases, hfields]
      exact hlisting.nodup_aliases
    rw [finish, Record.get?_foldl_rename haliases, view, hfields]
    show _ = Keyed.get? ((shown fields).filterMap (Field.shows row)) key
    cases hfind : task.aliases.find? fun pair => pair.2 = key with
    | some pair =>
      -- the key is an alias
      have hpair : pair.2 = key := by simpa using List.find?_some hfind
      obtain ⟨field, hmem, hsource, halias⟩ :=
        (mem_aliases hlisting hfields).1 (List.mem_of_find?_eq_some hfind)
      rw [hpair] at halias
      have hclean := get?_cleaned hlisting hfields row hmem
      rw [hsource] at hclean
      rw [hlisting.get?_shows row hmem (Field.alias_mem_names halias)]
      simp [Field.shows, halias, hclean, hsource]
    | none =>
      have hnone : ∀ field ∈ shown fields, field.alias? ≠ some key := by
        intro field hmem halias
        have := List.find?_eq_none.1 hfind (field.source, key)
          ((mem_aliases hlisting hfields).2 ⟨field, hmem, rfl, halias⟩)
        simp at this
      show (if _ then _ else _) = _
      by_cases hsource : ∃ field ∈ shown fields, field.source = key
      · -- the key is a source that is shown, under its own name or renamed
        obtain ⟨field, hmem, rfl⟩ := hsource
        rw [hlisting.get?_shows row hmem field.source_mem_names,
          get?_cleaned hlisting hfields row hmem]
        simp only [source_mem_aliases hlisting hfields hmem, Field.shows]
        cases halias : field.alias? with
        | none => cases row.get? field.source <;> simp
        | some name =>
          have hne : name ≠ field.source := fun heq => hnone field hmem (by rw [halias, heq])
          simp [hne]
      · -- nothing is shown under the key
        have hsources : ∀ field ∈ shown fields, field.source ≠ key :=
          fun field hmem heq => hsource ⟨field, hmem, heq⟩
        have hnames : ∀ field ∈ shown fields, key ∉ field.names := by
          intro field hmem hname
          rcases List.mem_cons.1 hname with rfl | hname
          · exact hsources field hmem rfl
          · exact hnone field hmem (Option.mem_toList.1 hname)
        rw [get?_shows_none row hnames, get?_cleaned_none hfields row hsources, ite_self]

end Task

/-! ## No key twice -/

theorem Keyed.nodup_keys_erase {α : Type} {entries : Keyed α} (h : (keys entries).Nodup)
    (key : String) : (keys (erase entries key)).Nodup := by
  rw [keys_erase]
  exact h.filter _

theorem Keyed.nodup_keys_ofWrites {α : Type} (writes : Keyed α) :
    (keys (ofWrites writes)).Nodup := by
  have hfold : ∀ start : Keyed α, (keys start).Nodup →
      (keys (writes.foldl (fun entries write => put entries write.1 write.2) start)).Nodup := by
    induction writes with
    | nil => exact fun _ h => h
    | cons write rest ih => exact fun start h => ih _ (nodup_keys_put h _ _)
  exact hfold [] List.nodup_nil

theorem Record.nodup_keys_project {row : Record} (h : (Keyed.keys row).Nodup)
    (fields : Option (List Field)) : (Keyed.keys (Record.project row fields)).Nodup := by
  cases fields with
  | none => exact h
  | some fields => exact Keyed.nodup_keys_ofWrites _

namespace Task

variable {task : Task} {row : Record} {column : String}

theorem nodup_keys_finish {record : Record} (h : (Keyed.keys record).Nodup) (task : Task) :
    (Keyed.keys (task.finish record)).Nodup := by
  have herase : ∀ (keys : List String) (record : Record), (Keyed.keys record).Nodup →
      (Keyed.keys (keys.foldl Keyed.erase record)).Nodup := by
    intro keys
    induction keys with
    | nil => exact fun _ h => h
    | cons key rest ih => exact fun record h => ih _ (Keyed.nodup_keys_erase h key)
  have hrename : ∀ (pairs : List (String × String)) (record : Record), (Keyed.keys record).Nodup →
      (Keyed.keys (pairs.foldl (fun record pair => Record.rename record pair.1 pair.2)
        record)).Nodup := by
    intro pairs
    induction pairs with
    | nil => exact fun _ h => h
    | cons pair rest ih =>
      exact fun record h => ih _ (Keyed.nodup_keys_put (Keyed.nodup_keys_erase h _) _ _)
  exact hrename _ _ (herase _ _ h)

/-- What a task shows of a row are values of the row, and nulls. -/
theorem distinct_of_view (hrow : (Json.obj row).Distinct) {key : String} {value : Json}
    (h : (task.view row).get? key = some value) : value.Distinct := by
  have hvalues := ((Json.distinct_obj_iff row).1 hrow).2
  have hmem := Keyed.mem_of_get? h
  unfold view at hmem
  split at hmem
  · exact hvalues _ hmem
  · obtain ⟨field, -, hshows⟩ := List.mem_filterMap.1 hmem
    unfold Field.shows at hshows
    split at hshows
    · obtain ⟨-, rfl⟩ := Prod.mk.inj (Option.some.inj hshows)
      cases hfound : row.get? field.source with
      | none => trivial
      | some found => exact hvalues _ (Keyed.mem_of_get? hfound)
    · obtain ⟨found, hfound, heq⟩ := Option.map_eq_some_iff.1 hshows
      obtain ⟨-, rfl⟩ := Prod.mk.inj heq
      exact hvalues _ (Keyed.mem_of_get? hfound)

/-- **What is left of a row in the end is alike to what the task shows of it.** -/
theorem alike_finish (hlisting : ∀ fields, task.fields = some fields → Listing fields)
    (hrow : (Json.obj row).Distinct) :
    Record.Alike (task.finish (Record.project row task.fields)) (task.view row) := by
  have hkeys := ((Json.distinct_obj_iff row).1 hrow).1
  refine .of_get?_eq (nodup_keys_finish (Record.nodup_keys_project hkeys _) task) ?_
    (fun key value h => distinct_of_view hrow h) (get?_finish hlisting row)
  unfold view
  split
  · exact hkeys
  · next fields hfields => exact (hlisting fields hfields).nodup_shows row

/-- A column that is fetched has the value that it has in the row. -/
theorem get?_project_of_mem (h : ∀ fields, task.fields = some fields →
      ∃ field ∈ fields, field.source = column) :
    (Record.project row task.fields).get? column = row.get? column := by
  cases hfields : task.fields with
  | none => rfl
  | some fields =>
    obtain ⟨field, hmem, hsource⟩ := h fields hfields
    rw [Record.get?_project, if_pos (hsource ▸ List.mem_map_of_mem hmem)]

end Task

/-! ## What temporary fields leave behind -/

namespace Keyed

variable {α : Type}

theorem foldl_erase (dropped : List String) (entries : Keyed α) :
    dropped.foldl erase entries = entries.filter fun entry => entry.1 ∉ dropped := by
  induction dropped generalizing entries with
  | nil => simp
  | cons key rest ih =>
    rw [List.foldl_cons, ih, erase, List.filter_filter]
    refine List.filter_congr fun entry _ => ?_
    simp [Bool.and_comm]

theorem filter_put (p : String → Bool) (entries : Keyed α) (key : String) (value : α) :
    (put entries key value).filter (fun entry => p entry.1) =
      if p key then put (entries.filter fun entry => p entry.1) key value
      else entries.filter fun entry => p entry.1 := by
  induction entries with
  | nil => cases hkey : p key <;> simp [put, hkey]
  | cons entry rest ih =>
    obtain ⟨k, v⟩ := entry
    by_cases heq : k = key
    · subst heq
      cases hkey : p k <;> simp [put, hkey]
    · cases hkey : p key <;> cases hk : p k <;> simp [put, heq, hk, hkey, ih]

/-- Writes under some of the keys make what is under these keys. -/
theorem filter_ofWrites (p : String → Bool) (writes : Keyed α) :
    (ofWrites writes).filter (fun entry => p entry.1) =
      ofWrites (writes.filter fun entry => p entry.1) := by
  have hfold : ∀ start : Keyed α,
      (writes.foldl (fun entries write => put entries write.1 write.2) start).filter
          (fun entry => p entry.1) =
        (writes.filter fun entry => p entry.1).foldl (fun entries write => put entries write.1 write.2)
          (start.filter fun entry => p entry.1) := by
    induction writes with
    | nil => exact fun _ => rfl
    | cons write rest ih =>
      intro start
      rw [List.foldl_cons, ih, filter_put, List.filter_cons]
      split <;> rfl
  exact hfold []

end Keyed

namespace Task

variable {task other : Task} {fields : List Field}

/-- Once the temporary fields are dropped, only those that are shown were fetched. -/
theorem drop_temporary (hlisting : Listing fields) (hfields : task.fields = some fields)
    (row : Record) :
    task.temporarySources.foldl Keyed.erase (Record.project row (some fields)) =
      Record.project row (some (shown fields)) := by
  have hkept : ∀ field ∈ fields,
      decide (field.source ∉ task.temporarySources) = !field.temporary := by
    intro field hmem
    cases htemporary : field.temporary with
    | true => simpa using (mem_temporarySources hfields).2 ⟨field, hmem, htemporary, rfl⟩
    | false =>
      simp only [Bool.not_false, decide_eq_true_eq, mem_temporarySources hfields]
      rintro ⟨dropped, hdropped, hother, heq⟩
      exact hlisting.apart dropped hdropped hother field (mem_shown.2 ⟨hmem, htemporary⟩)
        (heq ▸ field.source_mem_names)
  rw [Keyed.foldl_erase, Record.project, Record.project,
    Keyed.filter_ofWrites fun source => source ∉ task.temporarySources, shown, List.filter_filterMap,
    List.filterMap_filter]
  congr 1
  refine List.filterMap_congr fun field hmem => ?_
  rw [← hkept field hmem]
  cases row.get? field.source with
  | none => simp
  | some value => by_cases htemporary : field.source ∈ task.temporarySources <;> simp [htemporary]

/-- Only fields that are shown have an alias. -/
theorem aliases_eq (hlisting : Listing fields) (hfields : task.fields = some fields) :
    task.aliases = (shown fields).filterMap fun field =>
      field.alias?.map fun name => (field.source, name) := by
  rw [aliases, hfields, Option.getD_some, shown, List.filterMap_filter]
  refine List.filterMap_congr fun field hmem => ?_
  cases htemporary : field.temporary with
  | true => simp [hlisting.plain field hmem htemporary]
  | false => simp

/-- **Temporary fields leave nothing behind**: tasks that show the same fields show the same record,
in the same order, whatever else they fetched. -/
theorem finish_congr (hlisting : ∀ fields, task.fields = some fields → Listing fields)
    (hother : ∀ fields, other.fields = some fields → Listing fields)
    (hshown : task.fields.map shown = other.fields.map shown) (row : Record) :
    task.finish (Record.project row task.fields) = other.finish (Record.project row other.fields) := by
  cases hfields : task.fields with
  | none =>
    have hnone : other.fields = none := by simpa [hfields] using hshown
    simp [finish, temporarySources, aliases, hfields, hnone]
  | some fields =>
    obtain ⟨listed, hlisted, heq⟩ := Option.map_eq_some_iff.1 (hshown.symm.trans (by rw [hfields]; rfl))
    rw [hlisted, finish, finish, drop_temporary (hlisting fields hfields) hfields,
      drop_temporary (hother listed hlisted) hlisted, aliases_eq (hlisting fields hfields) hfields,
      aliases_eq (hother listed hlisted) hlisted, heq]

end Task

end NestedQuery
