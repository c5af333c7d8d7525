import Mathlib.Data.List.Forall2
import NestedQuery.Proofs.Plan.Edits
import NestedQuery.Proofs.Plan.Sound
import NestedQuery.Proofs.Text.Pieces
/-!
# Field lists

The field directive is a small language: entries between commas, each of
them a source, or a source and an alias with a colon between the two,
with blanks around any of them. `FieldList` says of a text that it lists
some fields, and it says so of the list as a whole: no name is taken
twice in it, wherever the two stand, and no alias is a column.

The directive goes through the entries one by one and holds each name
against those taken before it. It accepts just the texts that are field
lists, and fetches what they list and the special columns that they do
not (`Rule.applyField_iff_fieldList`). Nothing else in a node touches
the listing, so what the task of the node shows in the end is what its
directive lists (`Catalog.Compiles.lists`).
-/

namespace NestedQuery

/-! ## The language -/

/-- How a field is written as an entry, which has no blanks at its ends. -/
inductive Field.Entry : Field → String → Prop where
  /-- A source without a colon in it. -/
  | plain {source : String} : source ≠ "" → ':' ∉ source.toList → Entry { source } source
  /-- An empty alias is none. -/
  | unnamed {before after : String} : ':' ∉ before.toList → Text.trim before ≠ "" →
      Text.trim after = "" → Entry { source := Text.trim before } (before ++ ":" ++ after)
  | named {before after : String} : ':' ∉ before.toList → Text.trim before ≠ "" →
      Text.trim after ≠ "" →
      Entry { source := Text.trim before, alias? := some (Text.trim after) }
        (before ++ ":" ++ after)

/-- The entries among the pieces between commas: trimmed, and without those that are blank. -/
def entriesOf (parts : List String) : List String := (parts.map Text.trim).filter (· ≠ "")

/-- A text lists some fields of a model. -/
structure FieldList (model : Model) (spec : String) (listed : List Field) : Prop where
  /-- There is an entry for each field, in order, and no other entry. -/
  written : ∃ parts, Text.Joins ',' parts spec ∧ List.Forall₂ Field.Entry listed (entriesOf parts)
  nonempty : listed ≠ []
  /-- Among all sources and aliases there are no two alike. -/
  nodup : (listed.flatMap Field.names).Nodup
  /-- No alias is a column. -/
  aliases : ∀ field ∈ listed, ∀ name, field.alias? = some name →
    ∀ column ∈ model.columns, column.key ≠ name

/-- What is fetched for some listed fields: these, and as temporary fields the special columns that
are not the source of any. -/
def FieldList.fetched (model : Model) (listed : List Field) : List Field :=
  listed ++ (model.columns.filter fun column =>
    column.isSpecial ∧ column.key ∉ listed.map Field.source).map fun column =>
      { source := column.key, temporary := true }

/-! ## Reading an entry -/

namespace Field

/-- An entry is read as the field that it is written for. -/
theorem entry_iff {field : Field} {entry : String} :
    field.Entry entry ↔ field.source ≠ "" ∧ field.temporary = false ∧
      Rule.fieldParts entry = (field.source, field.alias?) := by
  constructor
  · intro h
    have hcut : ∀ {before after : String}, ':' ∉ before.toList →
        Text.cut? ':' (before ++ ":" ++ after) = some (before, after) := fun hbefore =>
      Text.cut?_eq_some_iff.2 ⟨hbefore, by simp⟩
    cases h with
    | plain hsource hcolon =>
      exact ⟨hsource, rfl, by rw [Rule.fieldParts, Text.cut?_eq_none_iff.2 hcolon]⟩
    | unnamed hbefore hsource halias =>
      exact ⟨hsource, rfl, by simp [Rule.fieldParts, hcut hbefore, halias]⟩
    | named hbefore hsource halias =>
      exact ⟨hsource, rfl, by simp [Rule.fieldParts, hcut hbefore, halias]⟩
  · rintro ⟨hsource, htemporary, hparts⟩
    obtain ⟨source, name?, temporary⟩ := field
    obtain rfl : temporary = false := htemporary
    unfold Rule.fieldParts at hparts
    split at hparts
    · next hcut =>
      obtain ⟨rfl, rfl⟩ := Prod.mk.inj hparts
      exact .plain hsource (Text.cut?_eq_none_iff.1 hcut)
    · next before after hcut =>
      obtain ⟨hbefore, hentry⟩ := Text.cut?_eq_some_iff.1 hcut
      obtain rfl : entry = before ++ ":" ++ after := String.toList_injective (by simp [hentry])
      obtain ⟨rfl, rfl⟩ := Prod.mk.inj hparts
      split
      · next halias => exact .unnamed hbefore hsource halias
      · next halias => exact .named hbefore hsource halias

/-- Nothing that is written as an entry is temporary. -/
theorem listed_of_entries {listed : List Field} {entries : List String}
    (h : List.Forall₂ Entry listed entries) : ∀ field ∈ listed, field.temporary = false := by
  induction h with
  | nil => simp
  | cons hentry _ ih => exact List.forall_mem_cons.2 ⟨(entry_iff.1 hentry).2.1, ih⟩

/-- A field stands fresh in front of others exactly if these are fresh with its names taken, and its
own names are free. -/
theorem fresh_cons_iff {model : Model} {taken : List String} {field : Field} {more : List Field} :
    Fresh model taken (field :: more) ↔ Fresh model (field.names ++ taken) more ∧
      field.names.Nodup ∧ (∀ name ∈ field.names, name ∉ taken) ∧ field.temporary = false ∧
      ∀ name, field.alias? = some name → model.hasColumn name = false := by
  constructor
  · rintro ⟨hnodup, hfree, hlisted, haliases⟩
    rw [List.flatMap_cons, List.nodup_append] at hnodup
    obtain ⟨hown, hmore, hapart⟩ := hnodup
    simp only [List.flatMap_cons, List.mem_append] at hfree
    obtain ⟨hfirst, hrest⟩ := List.forall_mem_cons.1 hlisted
    obtain ⟨halias, hothers⟩ := List.forall_mem_cons.1 haliases
    refine ⟨⟨hmore, fun name hname htaken => ?_, hrest, hothers⟩, hown,
      fun name hname => hfree name (Or.inl hname), hfirst, halias⟩
    rcases List.mem_append.1 htaken with htaken | htaken
    · exact hapart name htaken name hname rfl
    · exact hfree name (Or.inr hname) htaken
  · rintro ⟨hmore, hnames, hfree, hlisted, halias⟩
    exact hmore.cons hnames hfree hlisted halias

end Field

/-! ## Reading all of them -/

namespace Rule

variable {model : Model} {taken rest : List String} {entry : String} {listed : List Field}

/-- **One step of the reading**: the first entry is that of a field whose names are free, and the
rest is read with these names taken. -/
theorem readFields_cons_iff :
    readFields model taken (entry :: rest) = .ok listed ↔
      ∃ field more, listed = field :: more ∧ field.Entry entry ∧ field.names.Nodup ∧
        (∀ name ∈ field.names, name ∉ taken) ∧
        (∀ name, field.alias? = some name → model.hasColumn name = false) ∧
        readFields model (field.names ++ taken) rest = .ok more := by
  rw [readFields]
  constructor
  · intro h
    generalize hparts : fieldParts entry = parts at h
    obtain ⟨source, name?⟩ := parts
    simp only at h
    split at h
    · cases h
    next hsource =>
    split at h
    · cases h
    next hfree =>
    cases name? with
    | none =>
      obtain ⟨more, hmore, rfl⟩ := exists_of_cons_ok h
      exact ⟨{ source }, more, rfl, Field.entry_iff.2 ⟨hsource, rfl, hparts⟩, by simp [Field.names],
        by simpa [Field.names] using hfree, by simp, hmore⟩
    | some name =>
      simp only at h
      split at h
      · cases h
      next hname =>
      obtain ⟨hne, hfree'⟩ := not_or.1 hname
      split at h
      · cases h
      next hcolumn =>
      obtain ⟨more, hmore, rfl⟩ := exists_of_cons_ok h
      exact ⟨{ source, alias? := some name }, more, rfl, Field.entry_iff.2 ⟨hsource, rfl, hparts⟩,
        by simpa [Field.names] using Ne.symm hne, by simpa [Field.names] using ⟨hfree, hfree'⟩,
        by simpa using hcolumn, hmore⟩
  · rintro ⟨field, more, rfl, hentry, hnodup, hfree, haliases, hmore⟩
    obtain ⟨hsource, htemporary, hparts⟩ := Field.entry_iff.1 hentry
    obtain ⟨source, name?, temporary⟩ := field
    obtain rfl : temporary = false := htemporary
    have hfirst : source ∉ taken := hfree source (Field.source_mem_names _)
    rw [hparts]
    cases name? with
    | none =>
      have hrest : readFields model (source :: taken) rest = .ok more := hmore
      simp only [if_neg hsource, if_neg hfirst, hrest]
      rfl
    | some name =>
      have hrest : readFields model (source :: name :: taken) rest = .ok more := hmore
      have hname : ¬ (name = source ∨ name ∈ taken) := by
        rintro (rfl | hmem)
        · simp [Field.names] at hnodup
        · exact hfree name (Field.alias_mem_names rfl) hmem
      simp only [if_neg hsource, if_neg hfirst, if_neg hname, haliases name rfl, hrest]
      rfl

/-- **The reading accepts what is written**, if the names are fresh, and nothing else. -/
theorem readFields_eq_ok_iff {entries : List String} :
    readFields model taken entries = .ok listed ↔
      List.Forall₂ Field.Entry listed entries ∧ Field.Fresh model taken listed := by
  -- the rest of the entries is read with more names taken
  induction entries generalizing taken listed with
  | nil =>
    rw [readFields, List.forall₂_nil_right_iff, Except.ok.injEq, eq_comm]
    refine (and_iff_left_of_imp ?_).symm
    rintro rfl
    exact ⟨by simp, by simp, by simp, by simp⟩
  | cons entry rest ih =>
    rw [readFields_cons_iff, List.forall₂_cons_right_iff]
    constructor
    · rintro ⟨field, more, rfl, hentry, hnames, hfree, haliases, hmore⟩
      obtain ⟨hwritten, hfresh⟩ := ih.1 hmore
      exact ⟨⟨field, more, hentry, hwritten, rfl⟩,
        hfresh.cons hnames hfree (Field.entry_iff.1 hentry).2.1 haliases⟩
    · rintro ⟨⟨field, more, hentry, hwritten, rfl⟩, hfresh⟩
      obtain ⟨hmore, hnames, hfree, -, haliases⟩ := Field.fresh_cons_iff.1 hfresh
      exact ⟨field, more, rfl, hentry, hnames, hfree, haliases, ih.2 ⟨hwritten, hmore⟩⟩

end Rule

/-! ## The directive -/

/-- In a listing no alias is the source of a field, its own or another. -/
theorem Listing.alias_ne_source {fields : List Field} (h : Listing fields) {field other : Field}
    (hfield : field ∈ fields) (hother : other ∈ fields) : field.alias? ≠ some other.source := by
  intro halias
  have hshown : field ∈ shown fields := mem_shown.2 ⟨hfield, by
    cases htemporary : field.temporary with
    | false => rfl
    | true =>
      rw [h.plain field hfield htemporary] at halias
      cases halias⟩
  have hname := Field.alias_mem_names halias
  cases htemporary : other.temporary with
  | true => exact h.apart other hother htemporary field hshown hname
  | false =>
    obtain rfl := h.eq_of_mem_names hshown (mem_shown.2 ⟨hother, htemporary⟩) hname
      other.source_mem_names
    have hnames := (List.nodup_flatMap.1 h.nodup).1 field hshown
    simp [Field.names, halias] at hnames

namespace FieldList

variable {model : Model} {spec : String} {listed : List Field}

/-- A text lists some fields if they are what is read of its entries, of which there are some. -/
theorem iff_read : FieldList model spec listed ↔
    Rule.entries spec ≠ [] ∧ Rule.readFields model [] (Rule.entries spec) = .ok listed := by
  have hwritten : (∃ parts, Text.Joins ',' parts spec ∧
      List.Forall₂ Field.Entry listed (entriesOf parts)) ↔
        List.Forall₂ Field.Entry listed (Rule.entries spec) := by
    simp only [Text.joins_iff, exists_eq_left]
    rfl
  rw [Rule.readFields_eq_ok_iff]
  constructor
  · rintro ⟨hparts, hnonempty, hnodup, haliases⟩
    have hentries := hwritten.1 hparts
    refine ⟨fun hnil => hnonempty ?_, hentries, hnodup, by simp, Field.listed_of_entries hentries,
      fun field hmem name halias => Model.hasColumn_eq_false_iff.2 (haliases field hmem name halias)⟩
    rwa [hnil, List.forall₂_nil_right_iff] at hentries
  · rintro ⟨hnonempty, hentries, hfresh⟩
    refine ⟨hwritten.2 hentries, fun hnil => hnonempty ?_, hfresh.nodup,
      fun field hmem name halias => Model.hasColumn_eq_false_iff.1 (hfresh.aliases field hmem name halias)⟩
    rwa [hnil, List.forall₂_nil_left_iff] at hentries

theorem fetched_eq : fetched model listed = Rule.withSpecial model listed := by
  rw [fetched, Rule.withSpecial, Model.specialColumns, List.filter_filter]
  congr 2
  refine List.filter_congr fun column _ => ?_
  have hlisted : column.key ∈ listed.map Field.source ↔
      (listed.any fun field => field.source = column.key) = true := by
    simp
  simp only [hlisted, Bool.decide_and, Bool.decide_eq_true, Bool.not_eq_true, Bool.decide_eq_false]
  exact Bool.and_comm ..

/-- No alias is the source of a field, temporary or listed. -/
theorem alias_ne_source (h : FieldList model spec listed) {field other : Field}
    (hfield : field ∈ fetched model listed) (hother : other ∈ fetched model listed) :
    field.alias? ≠ some other.source := by
  rw [fetched_eq] at hfield hother
  exact (Rule.sound_withSpecial (iff_read.1 h).2).listing.alias_ne_source hfield hother

end FieldList

namespace Rule

/-- **The field directive accepts field lists and nothing else**, and lists the fields that are
written, in order. Behind them come temporary ones for the special columns that are not listed, so
no alias is the source of any field. -/
theorem applyField_iff_fieldList (model : Model) (value : Json) (task : Task) :
    ((∃ task', applyField model value task = (task', none)) ↔
      ∃ spec listed, value = .str spec ∧ FieldList model spec listed) ∧
    ∀ spec listed, value = .str spec → FieldList model spec listed →
      applyField model value task =
        ({ task with fields := some (FieldList.fetched model listed) }, none) ∧
      ∀ field ∈ FieldList.fetched model listed, ∀ other ∈ FieldList.fetched model listed,
        field.alias? ≠ some other.source := by
  have hlists : ∀ {spec listed}, FieldList model spec listed →
      applyField model (.str spec) task =
        ({ task with fields := some (FieldList.fetched model listed) }, none) := by
    intro spec listed h
    obtain ⟨hnonempty, hread⟩ := FieldList.iff_read.1 h
    rw [FieldList.fetched_eq]
    cases hentries : entries spec with
    | nil => exact absurd hentries hnonempty
    | cons entry rest =>
      rw [hentries] at hread
      simp only [applyField, hentries, hread]
  constructor
  · constructor
    · rintro ⟨task', h⟩
      obtain ⟨spec, listed, rfl, hnonempty, hread, -⟩ := applyField_ok h
      exact ⟨spec, listed, rfl, FieldList.iff_read.2 ⟨hnonempty, hread⟩⟩
    · rintro ⟨spec, listed, rfl, h⟩
      exact ⟨_, hlists h⟩
  · rintro spec listed rfl h
    exact ⟨hlists h, fun field hfield other hother => h.alias_ne_source hfield hother⟩

/-- A list with odd blanks, empty entries and an empty alias. -/
theorem applyField_iff_fieldList_titles (task : Task) :
    FieldList Library.book " title : name ,, author_id: ," [⟨"title", some "name", false⟩,
        ⟨"author_id", none, false⟩] ∧
      applyField Library.book (.str " title : name ,, author_id: ,") task =
        ({ task with fields := some [⟨"title", some "name", false⟩, ⟨"author_id", none, false⟩,
          ⟨"id", none, true⟩] }, none) := by
  have hlist : FieldList Library.book " title : name ,, author_id: ,"
      [⟨"title", some "name", false⟩, ⟨"author_id", none, false⟩] := by
    have hentries : entriesOf [" title : name ", "", " author_id: ", ""] =
        ["title : name", "author_id:"] := by decide
    refine ⟨⟨[" title : name ", "", " author_id: ", ""], ⟨by simp, by decide, by decide⟩, ?_⟩,
      by simp, by decide, by decide⟩
    rw [hentries]
    exact .cons (Field.entry_iff.2 ⟨by decide, rfl, by decide⟩)
      (.cons (Field.entry_iff.2 ⟨by decide, rfl, by decide⟩) .nil)
  exact ⟨hlist, ((applyField_iff_fieldList Library.book _ task).2 _ _ rfl hlist).1⟩

end Rule

/-! ## A node with a directive -/

/-- What is shown of the fields that are fetched are those that are listed. -/
theorem FieldList.shown_fetched {model : Model} {spec : String} {listed : List Field}
    (h : FieldList model spec listed) : shown (fetched model listed) = listed := by
  obtain ⟨parts, -, hentries⟩ := h.written
  have hlisted : shown listed = listed :=
    List.filter_eq_self.2 fun field hmem => by simp [Field.listed_of_entries hentries field hmem]
  have htemporary : shown ((model.columns.filter fun column =>
      column.isSpecial ∧ column.key ∉ listed.map Field.source).map fun column =>
        ({ source := column.key, temporary := true } : Field)) = [] :=
    List.filter_eq_nil_iff.2 fun field hmem => by
      obtain ⟨column, -, rfl⟩ := List.mem_map.1 hmem
      simp
  rw [fetched, shown, List.filter_append, ← shown, ← shown, hlisted, htemporary, List.append_nil]

namespace Catalog

variable {catalog : Catalog} {model : Model} {task ruled : Task} {fields : Record}

/-- Without a field directive among them, the keys of a node leave the listing alone. -/
theorem fields_applyRules (hfree : ∀ key ∈ Keyed.keys fields,
      model.rule? catalog.settings.keys key ≠ some .field)
    (h : catalog.applyRules model task fields = (ruled, none)) : ruled.fields = task.fields := by
  induction fields generalizing task with
  | nil =>
    rw [applyRules] at h
    rw [(Prod.mk.inj h).1]
  | cons field rest ih =>
    obtain ⟨hfirst, hrest⟩ := List.forall_mem_cons.1 hfree
    obtain ⟨mid, ⟨-, hpasses⟩, h⟩ := applyRules_cons_iff.1 h
    rw [ih hrest h]
    cases hrule : model.rule? catalog.settings.keys field.1 with
    | none =>
      simp only [hrule] at hpasses
      rw [hpasses]
    | some rule =>
      simp only [hrule] at hpasses
      obtain ⟨edit, hwrites, rfl, -⟩ := Rule.exists_edit hpasses
      cases edit with
      | fields listed =>
        obtain rfl : rule = .field := hwrites
        exact absurd hrule hfirst
      | keep | sort _ | page _ | constrain _ _ => rfl

/-- **What the rules of a node fetch is what its field directive lists.** -/
theorem fields_of_directive (hkeys : (Keyed.keys fields).Nodup)
    (h : catalog.applyRules model task fields = (ruled, none)) {key : String} {value : Json}
    (hfield : (key, value) ∈ fields)
    (hrule : model.rule? catalog.settings.keys key = some .field) :
    ∃ spec listed, value = .str spec ∧ FieldList model spec listed ∧
      ruled.fields = some (FieldList.fetched model listed) := by
  induction fields generalizing task with
  | nil => cases hfield
  | cons field rest ih =>
    obtain ⟨hkey, hrest⟩ := List.nodup_cons.1 hkeys
    obtain ⟨mid, ⟨-, hpasses⟩, h⟩ := applyRules_cons_iff.1 h
    rcases List.mem_cons.1 hfield with rfl | hfield
    · -- there is one key of the directive, so the listing is not written again
      have hfree : ∀ other ∈ Keyed.keys rest,
          model.rule? catalog.settings.keys other ≠ some .field := by
        intro other hother hsecond
        have heq : other = key := (Model.key_of_directive hsecond _ rfl).trans
          (Model.key_of_directive hrule _ rfl).symm
        exact hkey (heq ▸ hother)
      simp only [hrule, Rule.apply_ok_iff] at hpasses
      obtain ⟨spec, listed, rfl, hentries, hread, rfl⟩ := Rule.applyField_ok hpasses
      refine ⟨spec, listed, rfl, FieldList.iff_read.2 ⟨hentries, hread⟩, ?_⟩
      rw [fields_applyRules hfree h, FieldList.fetched_eq]
    · exact ih hrest h hfield

/-- **The task of a node shows what the field directive of the node lists.** -/
theorem Compiles.lists {parent : Option (Model × Task)} {nodes : Record} {branches : List Branch}
    {reports : List String} (h : catalog.Compiles parent nodes branches reports)
    (hnodes : (Json.obj nodes).Distinct) {resolved : Resolved}
    (hwrites : catalog.Writes nodes branches resolved fields task) (hfailed : task.isFailed = false)
    {key : String} {value : Json} (hfield : (key, value) ∈ fields)
    (hrule : resolved.model.rule? catalog.settings.keys key = some .field) :
    ∃ spec listed, value = .str spec ∧ FieldList resolved.model spec listed ∧
      task.fields.map shown = some listed := by
  obtain ⟨-, start, ruled, nested, hkeys, -, -, hrules, rfl⟩ := h.exists_ruled hnodes hwrites hfailed
  obtain ⟨spec, listed, hvalue, hlist, hfields⟩ := fields_of_directive hkeys hrules hfield hrule
  refine ⟨spec, listed, hvalue, hlist, ?_⟩
  rw [Branch.shown_grow, hfields, Option.map_some, hlist.shown_fetched]

end Catalog

end NestedQuery
