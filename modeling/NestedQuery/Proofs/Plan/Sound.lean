import NestedQuery.Proofs.Plan.Preorder
import NestedQuery.Proofs.Resolve.Shaping
/-!
# Plans without errors

In a plan that reports nothing every node compiled well, so every task
is what the rules of its node and the joins to it made of a fresh task.
What this gives for running it is collected in `Task.Sound`: the task
did not fail, it stands under its key alone unless a page was asked for,
and its listing of fields takes no name twice and fetches every column
to join on (`Catalog.sound_plan`).
-/

namespace NestedQuery

/-! ## Listings that the compiler makes -/

/-- What the compiler keeps to in a listing of fields: no name is taken twice among the fields that
are shown, no alias is a column, and the temporary fields are other columns. -/
structure Field.Sound (model : Model) (fields : List Field) : Prop where
  nodup : ((shown fields).flatMap Field.names).Nodup
  aliases : ∀ field ∈ shown fields, ∀ name, field.alias? = some name → model.hasColumn name = false
  temporary : ∀ field ∈ fields, field.temporary = true → field.alias? = none ∧
    model.hasColumn field.source = true ∧ ∀ other ∈ shown fields, other.source ≠ field.source

namespace Field.Sound

variable {model : Model} {fields : List Field}

theorem listing (h : Field.Sound model fields) : Listing fields where
  nodup := h.nodup
  plain := fun field hmem htemporary => (h.temporary field hmem htemporary).1
  apart := by
    intro field hmem htemporary other hother hname
    obtain ⟨-, hcolumn, hsource⟩ := h.temporary field hmem htemporary
    rcases List.mem_cons.1 hname with heq | hname
    · exact hsource other hother heq.symm
    · rw [h.aliases other hother field.source (Option.mem_toList.1 hname)] at hcolumn
      cases hcolumn

/-- A temporary field for a column whose name is free changes nothing that is shown. -/
theorem append (h : Field.Sound model fields) {columns : List String}
    (hcolumn : ∀ column ∈ columns, model.hasColumn column = true)
    (hfree : ∀ column ∈ columns, ∀ field ∈ shown fields, field.source ≠ column) :
    Field.Sound model (fields ++ columns.map fun column => { source := column, temporary := true }) := by
  have hnone : shown (columns.map fun column =>
      ({ source := column, temporary := true } : Field)) = [] := by
    rw [shown, List.filter_eq_nil_iff]
    intro field hmem
    obtain ⟨column, -, rfl⟩ := List.mem_map.1 hmem
    simp
  have hshown : shown (fields ++ columns.map fun column =>
      ({ source := column, temporary := true } : Field)) = shown fields := by
    rw [shown, List.filter_append, ← shown, ← shown, hnone, List.append_nil]
  refine ⟨hshown ▸ h.nodup, hshown ▸ h.aliases, fun field hmem htemporary => ?_⟩
  rw [hshown]
  rcases List.mem_append.1 hmem with hmem | hmem
  · exact h.temporary field hmem htemporary
  · obtain ⟨column, hcol, rfl⟩ := List.mem_map.1 hmem
    exact ⟨rfl, hcolumn column hcol, hfree column hcol⟩

theorem withTemporary (h : Field.Sound model fields) {columns : List String}
    (hcolumn : ∀ column ∈ columns, model.hasColumn column = true) :
    Field.Sound model (Task.withTemporary fields columns) := by
  induction columns generalizing fields with
  | nil => exact h
  | cons column rest ih =>
    obtain ⟨hfirst, hrest⟩ := List.forall_mem_cons.1 hcolumn
    unfold Task.withTemporary
    split
    · exact ih h hrest
    · next hany =>
      have hone : ∀ other ∈ [column], model.hasColumn other = true := by simpa using hfirst
      refine ih (h.append hone ?_) hrest
      intro other hother field hfield heq
      obtain rfl := List.mem_singleton.1 hother
      exact hany (List.any_eq_true.2 ⟨field, (mem_shown.1 hfield).1, by simpa using heq⟩)

end Field.Sound

/-- Every column is fetched once it is added to a listing. -/
theorem Task.exists_withTemporary (fields : List Field) (columns : List String) :
    (∀ field ∈ fields, field ∈ withTemporary fields columns) ∧
      ∀ column ∈ columns, ∃ field ∈ withTemporary fields columns, field.source = column := by
  induction columns generalizing fields with
  | nil => exact ⟨fun _ h => h, by simp⟩
  | cons column rest ih =>
    unfold withTemporary
    split
    · next hany =>
      obtain ⟨hkept, hfound⟩ := ih fields
      refine ⟨hkept, List.forall_mem_cons.2 ⟨?_, hfound⟩⟩
      obtain ⟨field, hmem, heq⟩ := List.any_eq_true.1 hany
      exact ⟨field, hkept field hmem, by simpa using heq⟩
    · obtain ⟨hkept, hfound⟩ := ih (fields ++ [{ source := column, temporary := true }])
      exact ⟨fun field hmem => hkept field (List.mem_append_left _ hmem),
        List.forall_mem_cons.2 ⟨⟨_, hkept _ (List.mem_append_right _ (List.mem_singleton_self _)),
          rfl⟩, hfound⟩⟩

/-- Temporary fields are not shown. -/
theorem Task.shown_withTemporary (fields : List Field) (columns : List String) :
    shown (withTemporary fields columns) = shown fields := by
  induction columns generalizing fields with
  | nil => rfl
  | cons column rest ih =>
    unfold withTemporary
    split
    · exact ih fields
    · rw [ih, shown, List.filter_append]
      exact List.append_nil _

/-- Fields that are listed take each name once and no name that was taken before, and no alias is a
column; none of them is temporary. -/
structure Field.Fresh (model : Model) (taken : List String) (fields : List Field) : Prop where
  nodup : (fields.flatMap Field.names).Nodup
  free : ∀ name ∈ fields.flatMap Field.names, name ∉ taken
  listed : ∀ field ∈ fields, field.temporary = false
  aliases : ∀ field ∈ fields, ∀ name, field.alias? = some name → model.hasColumn name = false

/-- A field in front of others that were listed with its names taken. -/
theorem Field.Fresh.cons {model : Model} {taken : List String} {field : Field} {more : List Field}
    (h : Field.Fresh model (field.names ++ taken) more) (hnames : field.names.Nodup)
    (hfree : ∀ name ∈ field.names, name ∉ taken) (hlisted : field.temporary = false)
    (halias : ∀ name, field.alias? = some name → model.hasColumn name = false) :
    Field.Fresh model taken (field :: more) where
  nodup := by
    rw [List.flatMap_cons]
    refine List.nodup_append.2 ⟨hnames, h.nodup, fun a ha b hb heq => ?_⟩
    exact h.free b hb (List.mem_append_left _ (heq ▸ ha))
  free := by
    intro name hname
    rw [List.flatMap_cons] at hname
    rcases List.mem_append.1 hname with hname | hname
    · exact hfree name hname
    · exact fun htaken => h.free name hname (List.mem_append_right _ htaken)
  listed := List.forall_mem_cons.2 ⟨hlisted, h.listed⟩
  aliases := List.forall_mem_cons.2 ⟨halias, h.aliases⟩

namespace Rule

/-- One more item in front, if the others could be read. -/
theorem exists_of_cons_ok {ε α : Type} {rest : Except ε (List α)} {item : α} {items : List α}
    (h : (do return item :: (← rest)) = Except.ok items) :
    ∃ more, rest = .ok more ∧ items = item :: more := by
  cases rest with
  | error fault => cases h
  | ok more => exact ⟨more, rfl, (Except.ok.inj h).symm⟩

/-- Entries that pass are read into fresh fields. -/
theorem fresh_of_readFields {model : Model} {taken entries : List String} {listed : List Field}
    (h : readFields model taken entries = .ok listed) : Field.Fresh model taken listed := by
  induction entries generalizing taken listed with
  | nil =>
    obtain rfl := Except.ok.inj h
    exact ⟨by simp, by simp, by simp, by simp⟩
  | cons entry rest ih =>
    unfold readFields at h
    generalize fieldParts entry = parts at h
    obtain ⟨source, name?⟩ := parts
    simp only at h
    split at h
    · cases h
    · split at h
      · cases h
      · next hsource =>
        cases name? with
        | none =>
          obtain ⟨more, hmore, rfl⟩ := exists_of_cons_ok h
          refine .cons (ih hmore) ?_ ?_ rfl ?_ <;> simp [Field.names, hsource]
        | some name =>
          simp only at h
          split at h
          · cases h
          · next hname =>
            obtain ⟨hne, hfree⟩ := not_or.1 hname
            split at h
            · cases h
            · next hcolumn =>
              obtain ⟨more, hmore, rfl⟩ := exists_of_cons_ok h
              refine .cons (ih hmore) ?_ ?_ rfl ?_
              · simpa [Field.names] using Ne.symm hne
              · simpa [Field.names] using ⟨hsource, hfree⟩
              · simpa using hcolumn

/-- A listing with the special columns behind it is sound. -/
theorem sound_withSpecial {model : Model} {entries : List String} {listed : List Field}
    (h : readFields model [] entries = .ok listed) : Field.Sound model (withSpecial model listed) := by
  have hfresh := fresh_of_readFields h
  have hshown : shown listed = listed :=
    List.filter_eq_self.2 fun field hmem => by simp [hfresh.listed field hmem]
  have hlisted : Field.Sound model listed := by
    refine ⟨hshown.symm ▸ hfresh.nodup, fun field hmem => hfresh.aliases field (mem_shown.1 hmem).1, ?_⟩
    intro field hmem htemporary
    rw [hfresh.listed field hmem] at htemporary
    cases htemporary
  have hspecial : withSpecial model listed = listed ++
      ((model.specialColumns.filter fun column =>
        !listed.any fun field => field.source = column.key).map Column.key).map fun column =>
          { source := column, temporary := true } := by
    rw [withSpecial, List.map_map]
    rfl
  rw [hspecial]
  refine hlisted.append ?_ ?_
  · intro column hcolumn
    obtain ⟨special, hmem, rfl⟩ := List.mem_map.1 hcolumn
    have hmodel := List.mem_of_mem_filter (List.mem_of_mem_filter hmem)
    exact Model.hasColumn_of_mem hmodel
  · intro column hcolumn field hfield
    obtain ⟨special, hmem, rfl⟩ := List.mem_map.1 hcolumn
    have hunlisted := (List.mem_filter.1 hmem).2
    simp only [Bool.not_eq_true', List.any_eq_false, decide_eq_true_eq] at hunlisted
    exact hunlisted field (mem_shown.1 hfield).1

end Rule

/-! ## What the rules leave alone -/

/-- No enabled page was asked for. -/
def Task.Unpaged (task : Task) : Prop := ∀ page, task.page = some page → page.enabled = false

namespace Rule

/-- A rule other than that of pagination leaves the path and the page alone. -/
theorem apply_path {rule : Rule} {model : Model} {settings : Settings} {key : String}
    {value : Json} {task task' : Task} (hrule : rule ≠ .pagination)
    (h : rule.applyTo model settings key value task = (task', none)) :
    task'.path = task.path ∧ task'.page = task.page := by
  cases rule with
  | model =>
    obtain rfl : task = task' := (Prod.mk.inj h).1
    exact ⟨rfl, rfl⟩
  | field =>
    obtain ⟨spec, listed, -, -, -, rfl⟩ := applyField_ok h
    exact ⟨rfl, rfl⟩
  | sort =>
    obtain ⟨keys, rfl⟩ := applySort_ok h
    exact ⟨rfl, rfl⟩
  | pagination => exact absurd rfl hrule
  | column type =>
    obtain ⟨constraint, rfl⟩ := applyColumn_ok h
    exact ⟨rfl, rfl⟩

end Rule

/-- What each rule keeps of a task. -/
structure Task.Ruled (model : Model) (start task : Task) : Prop where
  errors : task.errors = start.errors
  joinColumns : task.joinColumns = start.joinColumns
  fields : ∀ fields, task.fields = some fields → Field.Sound model fields

namespace Catalog

variable {catalog : Catalog} {model : Model}

/-- What every rule keeps is kept by the rules of a node. -/
theorem applyRules_induction {P : Task → Prop}
    (hstep : ∀ (rule : Rule) (key : String) (value : Json) (task task' : Task),
      model.rule? catalog.settings.keys key = some rule →
      rule.applyTo model catalog.settings key value task = (task', none) → P task → P task')
    (task : Task) (fields : Record) (h : P task) : P (catalog.applyRules model task fields).1 := by
  fun_induction applyRules catalog model task fields with
  | case1 => exact h
  | case2 => exact h
  | case3 _ _ _ _ _ _ ih => exact ih h
  | case4 _ _ _ _ _ _ _ _ _ happly =>
    obtain rfl := Rule.eq_of_applyTo happly
    exact h
  | case5 _ _ _ _ _ _ hrule _ happly ih => exact ih (hstep _ _ _ _ _ hrule happly h)

theorem ruled_applyRules {start : Task} (hstart : start.fields = none) (fields : Record) :
    Task.Ruled model start (catalog.applyRules model start fields).1 := by
  refine applyRules_induction (fun rule key value task task' _ happly h => ?_) start fields
    ⟨rfl, rfl, by simp [hstart]⟩
  cases rule with
  | model =>
    obtain rfl : task = task' := (Prod.mk.inj happly).1
    exact h
  | field =>
    obtain ⟨spec, listed, -, -, hread, rfl⟩ := Rule.applyField_ok happly
    refine ⟨h.errors, h.joinColumns, fun fields hfields => ?_⟩
    obtain rfl := Option.some.inj hfields
    exact Rule.sound_withSpecial hread
  | sort =>
    obtain ⟨keys, rfl⟩ := Rule.applySort_ok happly
    exact ⟨h.errors, h.joinColumns, h.fields⟩
  | pagination =>
    obtain ⟨page, -, rfl⟩ := Rule.applyPagination_ok happly
    exact ⟨h.errors, h.joinColumns, h.fields⟩
  | column type =>
    obtain ⟨constraint, rfl⟩ := Rule.applyColumn_ok happly
    exact ⟨h.errors, h.joinColumns, h.fields⟩

/-- A path stays as it is if no enabled page is asked for. The key of pagination is met once, so a
page that is not enabled takes the place of none that was. -/
theorem path_applyRules {task task' : Task} {fields : Record} {fault : Option Fault}
    (hkeys : (Keyed.keys fields).Nodup) (h : catalog.applyRules model task fields = (task', fault))
    (hfresh : catalog.settings.keys.pagination ∈ Keyed.keys fields → task.page = none)
    (hpage : task'.Unpaged) {path : NodePath} (hpath : task.Unpaged → task.path = path) :
    task'.path = path := by
  fun_induction applyRules catalog model task fields with
  | case1 task =>
    obtain ⟨rfl, -⟩ := Prod.mk.inj h
    exact hpath hpage
  | case2 =>
    obtain ⟨rfl, -⟩ := Prod.mk.inj h
    exact hpath hpage
  | case3 task key value rest _ _ ih =>
    exact ih (List.nodup_cons.1 hkeys).2 h (fun hmem => hfresh (List.mem_cons_of_mem _ hmem)) hpath
  | case4 _ _ _ _ _ _ _ _ _ happly =>
    obtain ⟨rfl, -⟩ := Prod.mk.inj h
    obtain rfl := Rule.eq_of_applyTo happly
    exact hpath hpage
  | case5 task key value rest _ rule hrule ruled happly ih =>
    obtain ⟨hkey, hrest⟩ := List.nodup_cons.1 hkeys
    by_cases hpagination : rule = .pagination
    · subst hpagination
      obtain ⟨page, -, rfl⟩ := Rule.applyPagination_ok happly
      have hname := Model.key_of_directive hrule _ rfl
      have hnone : task.page = none := hfresh (hname ▸ List.mem_cons_self ..)
      refine ih hrest h (fun hmem => absurd (hname ▸ hmem) hkey) fun hunpaged => ?_
      have hdisabled : page.enabled = false := hunpaged page rfl
      have hsame : Rule.pagedPath catalog.settings.pagination page task.path = task.path := by
        simp [Rule.pagedPath, hdisabled]
      rw [← hpath (by simp [Task.Unpaged, hnone])]
      exact hsame
    · obtain ⟨hsame, hpageSame⟩ := Rule.apply_path hpagination happly
      refine ih hrest h (fun hmem => ?_) fun hunpaged => ?_
      · rw [hpageSame]
        exact hfresh (List.mem_cons_of_mem _ hmem)
      · rw [hsame]
        exact hpath fun page hp => hunpaged page (hpageSame ▸ hp)

end Catalog

/-! ## Sound tasks -/

namespace Task

/-- A fresh task has nothing to fetch, no page, and indexes columns of its model. -/
theorem start_blank (resolved : Resolved) (key : String) (parent : Option Task)
    (link : Option Link) : (start resolved key parent link).fields = none ∧
      (start resolved key parent link).page = none := by
  cases link <;> simp [start]

theorem mem_addJoinColumn_iff {task : Task} {column other : String} :
    other ∈ (task.addJoinColumn column).joinColumns ↔
      other ∈ task.joinColumns ∨ other = column := by
  unfold addJoinColumn
  split
  · next hmem =>
    refine ⟨Or.inl, ?_⟩
    rintro (hother | rfl)
    · exact hother
    · exact hmem
  · simp

theorem mem_start_joinColumns {resolved : Resolved} {key : String} {parent : Option Task}
    {link : Option Link} {column : String}
    (h : column ∈ (start resolved key parent link).joinColumns) :
    (∃ special ∈ resolved.model.columns, special.key = column) ∨
      ∃ l, link = some l ∧ column = l.localKey := by
  have hspecial : column ∈ resolved.model.specialColumns.map Column.key →
      ∃ special ∈ resolved.model.columns, special.key = column := by
    intro hmem
    obtain ⟨special, hspecial, rfl⟩ := List.mem_map.1 hmem
    exact ⟨special, List.mem_of_mem_filter hspecial, rfl⟩
  cases link with
  | none => exact Or.inl (hspecial h)
  | some link =>
    rcases mem_addJoinColumn_iff.1 h with hmem | rfl
    · exact Or.inl (hspecial hmem)
    · exact Or.inr ⟨link, rfl, rfl⟩

end Task

namespace Branch

theorem widen_fields (task : Task) (nested : List Branch) :
    (widen task nested).fields = task.fields ∧ (widen task nested).page = task.page ∧
      (widen task nested).errors = task.errors := by
  induction nested generalizing task with
  | nil => exact ⟨rfl, rfl, rfl⟩
  | cons branch rest ih =>
    unfold widen
    split
    · next link _ =>
      simpa using ih (task.addJoinColumn link.referencedKey)
    · exact ih task

/-- What is nested in a task shows nothing more of it. -/
theorem shown_grow (task : Task) (nested : List Branch) :
    (grow (widen task nested).addJoinFields nested).root.fields.map shown = task.fields.map shown := by
  show ((widen task nested).fields.map _).map shown = _
  rw [(widen_fields task nested).1]
  cases task.fields with
  | none => rfl
  | some fields => exact congrArg some (Task.shown_withTemporary fields _)

/-- A column that a task indexes for the branches nested in it is one that a branch joins to. -/
theorem mem_widen_iff {task : Task} {nested : List Branch} {column : String} :
    column ∈ (widen task nested).joinColumns ↔ column ∈ task.joinColumns ∨
      ∃ branch ∈ nested, ∃ link, branch.root.link = some link ∧ column = link.referencedKey := by
  induction nested generalizing task with
  | nil => simp [widen]
  | cons branch rest ih =>
    unfold widen
    split
    · next link hlink =>
      rw [ih, Task.mem_addJoinColumn_iff, or_assoc]
      simp [hlink]
    · next hlink =>
      rw [ih]
      simp [hlink]

end Branch

/-- What a task is like in a plan without errors, as far as running it is concerned. -/
structure Task.Sound (catalog : Catalog) (task : Task) : Prop where
  /-- It is served by those that its model names. -/
  served : ∃ model ∈ catalog.models, task.model = model.name ∧ task.parser = model.parser ∧
    task.executor = model.executor
  errors : task.errors = []
  /-- It stands under its key alone. -/
  keys : task.Unpaged → ∃ key, task.path.keys = [key]
  /-- What it lists is fit to be shown, and the columns to join on are fetched. -/
  listing : ∀ fields, task.fields = some fields → Listing fields ∧
    ∀ column ∈ task.joinColumns, ∃ field ∈ fields, field.source = column

namespace Catalog

variable {catalog : Catalog}

/-- A model is known by its name. -/
theorem Accepted.eq_of_name (h : catalog.Accepted) {model other : Model}
    (hmodel : model ∈ catalog.models) (hother : other ∈ catalog.models)
    (hname : model.name = other.name) : model = other := by
  have hfound := h.model?_name hmodel
  rw [hname, h.model?_name hother] at hfound
  exact (Option.some.inj hfound).symm

/-- The columns that a node's task indexes in the end are columns of its model. -/
theorem hasColumn_of_grown (haccepted : catalog.Accepted) {parent : Option (Model × Task)}
    {key : String} {value : Json} {model : Model} {start ruled : Task} {nodes : Record}
    {nested : List Branch} {found : List String}
    (hopens : catalog.opens parent key value = .ok (model, start))
    (hparent : ∀ home p, parent = some (home, p) → home ∈ catalog.models)
    (hextends : ruled.Extends start) (hruled : ruled.joinColumns = start.joinColumns)
    (hnested : catalog.Compiles (some (model, Branch.widen ruled nested)) nodes nested found)
    {column : String} (hcolumn : column ∈ (Branch.widen ruled nested).joinColumns) :
    model.hasColumn column = true := by
  obtain ⟨hmodel, resolved, link, rfl, rfl, hlink⟩ := opens_ok hopens
  rcases Branch.mem_widen_iff.1 hcolumn with hown | ⟨branch, hbranch, l, hl, rfl⟩
  · rw [hruled] at hown
    rcases Task.mem_start_joinColumns hown with ⟨special, hspecial, rfl⟩ | ⟨l, rfl, rfl⟩
    · exact Model.hasColumn_of_mem hspecial
    · cases parent with
      | none => cases hlink
      | some home =>
        obtain ⟨other, hother, hjoin⟩ := hlink
        obtain rfl := Option.some.inj hother
        exact (haccepted.link_columns hmodel (hparent home.1 home.2 rfl) hjoin).1
  · have hname : (Branch.widen ruled nested).model = resolved.model.name :=
      ((Branch.widen_extends ruled nested).trans hextends).model.trans (Task.start_model ..)
    have hfits := hnested.fits fun home p hp => by
      obtain ⟨rfl, rfl⟩ := Prod.mk.inj (Option.some.inj hp)
      exact ⟨hmodel, hname, fun other hmem link hlink => Branch.mem_widen hmem hlink⟩
    obtain ⟨other, hother, -, -, child, hchild, host, hhost, -, hhostName, hjoin⟩ :=
      (Branch.root_below hfits hbranch).link
    obtain rfl := haccepted.eq_of_name hhost hmodel (hhostName.trans hname)
    obtain rfl := Option.some.inj (hl.symm.trans hother)
    exact (haccepted.link_columns hchild hhost hjoin).2

section

variable {parent : Option (Model × Task)} {key : String} {value : Json} {model : Model}
  {start ruled : Task} {fields : Record} {nested : List Branch} {found : List String}

/-- What the rules make of the fresh task of a node. -/
theorem ruled_of_opens (hopens : catalog.opens parent key value = .ok (model, start))
    (hrules : catalog.applyRules model start fields = (ruled, none)) :
    Task.Ruled model start ruled := by
  obtain ⟨-, resolved, link, -, rfl, -⟩ := opens_ok hopens
  have hall : Task.Ruled model _ (catalog.applyRules model _ fields).1 :=
    ruled_applyRules (Task.start_blank resolved key (parent.map Prod.snd) link).1 fields
  rwa [hrules] at hall

/-- A node that went well has no errors. -/
theorem errors_grown (hopens : catalog.opens parent key value = .ok (model, start))
    (hrules : catalog.applyRules model start fields = (ruled, none)) (nested : List Branch) :
    (Branch.widen ruled nested).errors = [] := by
  rw [(Branch.widen_fields ruled nested).2.2, (ruled_of_opens hopens hrules).errors]
  obtain ⟨-, resolved, link, -, rfl, -⟩ := opens_ok hopens
  exact Task.start_errors ..

/-- What a node that went well lists in the end: what its field directive made of it, and every
column to join on. -/
theorem fields_grown (haccepted : catalog.Accepted)
    (hopens : catalog.opens parent key value = .ok (model, start))
    (hparent : ∀ home p, parent = some (home, p) → home ∈ catalog.models)
    (hrules : catalog.applyRules model start fields = (ruled, none))
    (hnested : catalog.Compiles (some (model, Branch.widen ruled nested))
      (catalog.nestedFields model fields) nested found) {listed : List Field}
    (hlisted : (Branch.widen ruled nested).addJoinFields.fields = some listed) :
    Field.Sound model listed ∧
      ∀ column ∈ (Branch.widen ruled nested).joinColumns, ∃ field ∈ listed, field.source = column := by
  have hextends : ruled.Extends start := by
    simpa [hrules] using catalog.applyRules_extends model start fields
  have hruled := ruled_of_opens hopens hrules
  obtain ⟨written, hwritten, rfl⟩ := Option.map_eq_some_iff.1 hlisted
  have hsound := hruled.fields written ((Branch.widen_fields ruled nested).1 ▸ hwritten)
  have hcolumns : ∀ column ∈ (Branch.widen ruled nested).joinColumns,
      model.hasColumn column = true := fun column hcolumn =>
    hasColumn_of_grown haccepted hopens hparent hextends hruled.joinColumns hnested hcolumn
  exact ⟨hsound.withTemporary hcolumns, (Task.exists_withTemporary written _).2⟩

/-- A task with all that is nested in it, of a node that went well, is sound. -/
theorem sound_grown (haccepted : catalog.Accepted)
    (hopens : catalog.opens parent key value = .ok (model, start))
    (hparent : ∀ home p, parent = some (home, p) → home ∈ catalog.models)
    (hfields : (Keyed.keys fields).Nodup)
    (hrules : catalog.applyRules model start fields = (ruled, none))
    (hnested : catalog.Compiles (some (model, Branch.widen ruled nested))
      (catalog.nestedFields model fields) nested found) (count : Nat) :
    Task.Sound catalog { (Branch.widen ruled nested).addJoinFields with childCount := count } := by
  have hruledExtends : ruled.Extends start := by
    simpa [hrules] using catalog.applyRules_extends model start fields
  have hextends := (Branch.widen_extends ruled nested).trans hruledExtends
  have herrors := errors_grown hopens hrules nested
  have hlisting : ∀ listed, (Branch.widen ruled nested).addJoinFields.fields = some listed →
      Listing listed ∧ ∀ column ∈ (Branch.widen ruled nested).joinColumns,
        ∃ field ∈ listed, field.source = column := fun listed hlisted =>
    (fields_grown haccepted hopens hparent hrules hnested hlisted).imp_left Field.Sound.listing
  obtain ⟨hmodel, resolved, link, rfl, rfl, -⟩ := opens_ok hopens
  obtain ⟨-, hpage⟩ := Task.start_blank resolved key (parent.map Prod.snd) link
  refine ⟨⟨resolved.model, hmodel, ?_, ?_, ?_⟩, herrors, fun hunpaged => ⟨key, ?_⟩, hlisting⟩
  · exact hextends.model.trans (Task.start_model ..)
  · exact hextends.parser.trans (Task.start_served ..).1
  · exact hextends.executor.trans (Task.start_served ..).2
  · have hruledUnpaged : ruled.Unpaged := fun page hp =>
      hunpaged page ((Branch.widen_fields ruled nested).2.1.trans hp)
    have hpath := path_applyRules hfields hrules (fun _ => hpage) hruledUnpaged fun _ => rfl
    show (Branch.widen ruled nested).path.keys = [key]
    rw [Branch.widen_path, hpath, Task.start_path]

end

/-- A task that did not fail is sound. -/
theorem Compiles.sound (haccepted : catalog.Accepted) {parent : Option (Model × Task)}
    {nodes : Record} {branches : List Branch} {reports : List String}
    (h : catalog.Compiles parent nodes branches reports) (hnodes : (Json.obj nodes).Distinct)
    (hparent : ∀ home p, parent = some (home, p) → home ∈ catalog.models) :
    ∀ task ∈ Branch.tasksOf branches, task.isFailed = false → task.Sound catalog := by
  -- a node that failed has one task, which failed
  have hfail : ∀ {failed : Task} {fault : Fault} {rest : List Branch},
      (∀ task ∈ Branch.tasksOf rest, task.isFailed = false → task.Sound catalog) →
      ∀ task ∈ Branch.tasksOf ((Branch.fail failed fault).1 :: rest), task.isFailed = false →
        task.Sound catalog := by
    intro failed fault rest hrest task hmem hunfailed
    rw [Branch.fail, Branch.tasksOf_node, Branch.tasksOf_nil, List.nil_append, List.mem_cons] at hmem
    rcases hmem with rfl | hmem
    · simp [Task.isFailed] at hunfailed
    · exact hrest task hmem hunfailed
  induction h with
  | nil => simp
  | unresolved _ _ ih =>
    intro task hmem hunfailed
    rw [Branch.tasksOf_node, Branch.tasksOf_nil, List.nil_append, List.mem_cons] at hmem
    rcases hmem with rfl | hmem
    · cases hunfailed
    · exact ih (hnodes.sublist (List.sublist_cons_self ..)) hparent task hmem hunfailed
  | refused _ _ _ ih => exact hfail (ih (hnodes.sublist (List.sublist_cons_self ..)) hparent)
  | misruled _ _ _ _ ih => exact hfail (ih (hnodes.sublist (List.sublist_cons_self ..)) hparent)
  | broken _ _ _ _ _ _ _ _ ih =>
    exact hfail (ih (hnodes.sublist (List.sublist_cons_self ..)) hparent)
  | @grown _ _ _ model start ruled fields _ nested _ _ _ hopens hvalue hrules hnested _ ihnested ih =>
    have hfields : (Json.obj fields).Distinct := Json.distinct_nodeFields hvalue
      (((Json.distinct_obj_iff _).1 hnodes).2 _ (List.mem_cons_self ..))
    have hroot := sound_grown haccepted hopens hparent ((Json.distinct_obj_iff _).1 hfields).1 hrules
      hnested (Branch.tasksOf nested).length
    intro task hmem hunfailed
    rw [Branch.grow, Branch.tasksOf_node, List.mem_cons, List.mem_append] at hmem
    rcases hmem with rfl | hmem | hmem
    · exact hroot
    · refine ihnested (hfields.sublist List.filter_sublist) (fun home p hp => ?_) task hmem hunfailed
      obtain ⟨rfl, rfl⟩ := Prod.mk.inj (Option.some.inj hp)
      exact (opens_ok hopens).1
    · exact ih (hnodes.sublist (List.sublist_cons_self ..)) hparent task hmem hunfailed

/-- Where nothing is reported, nothing failed. -/
theorem Compiles.unfailed {parent : Option (Model × Task)} {nodes : Record}
    {branches : List Branch} {reports : List String}
    (h : catalog.Compiles parent nodes branches reports) (hreports : reports = []) :
    ∀ task ∈ Branch.tasksOf branches, task.isFailed = false := by
  induction h with
  | nil => simp
  | unresolved => cases hreports
  | refused => cases hreports
  | misruled => cases hreports
  | broken =>
    obtain ⟨-, hreport⟩ := List.append_eq_nil_iff.1 hreports
    cases hreport
  | @grown _ _ _ model start ruled fields _ nested _ _ _ hopens _ hrules _ _ ihnested ih =>
    obtain ⟨hfound, hrest⟩ := List.append_eq_nil_iff.1 hreports
    intro task hmem
    rw [Branch.grow, Branch.tasksOf_node, List.mem_cons, List.mem_append] at hmem
    rcases hmem with rfl | hmem | hmem
    · show (!(Branch.widen ruled nested).errors.isEmpty) = false
      rw [errors_grown hopens hrules]
      rfl
    · exact ihnested hfound task hmem
    · exact ih hrest task hmem

/-- Every task of a plan that did not fail is sound. -/
theorem sound_of_unfailed (haccepted : catalog.Accepted) {request : Record}
    (hrequest : (Json.obj request).Distinct) :
    ∀ task ∈ (catalog.plan request).tasks, task.isFailed = false → task.Sound catalog := by
  rw [plan_tasks]
  exact (compiles_forest catalog request).sound haccepted hrequest (by simp)

/-- **Every task of a plan without errors is sound.** -/
theorem sound_plan (haccepted : catalog.Accepted) {request : Record}
    (hrequest : (Json.obj request).Distinct) (herrors : (catalog.plan request).errors = []) :
    ∀ task ∈ (catalog.plan request).tasks, task.Sound catalog := by
  intro task hmem
  refine sound_of_unfailed haccepted hrequest task hmem ?_
  rw [plan_tasks] at hmem
  exact (compiles_forest catalog request).unfailed herrors task hmem

/-! ## Nested keys -/

/-- A key without rule is no column. -/
theorem hasColumn_of_not_hasRule {model : Model} {key : String}
    (h : catalog.hasRule model key = false) : model.hasColumn key = false := by
  rw [hasRule, Option.isSome_eq_false_iff, Option.isNone_iff_eq_none] at h
  exact Model.hasColumn_eq_false_iff.2 (Model.no_column h).2

end Catalog

/-- No branch is nested under the key of a temporary field. -/
inductive Branch.Tidy : List Branch → Prop where
  | nil : Tidy []
  | node {task : Task} {nested rest : List Branch} :
      (∀ branch ∈ nested, ∀ key ∈ task.temporarySources, branch.segment? ≠ some key) →
      Tidy nested → Tidy rest → Tidy (.node task nested :: rest)

namespace Catalog

variable {catalog : Catalog}

/-- A branch is nested under a key without rule, and a temporary field is for a column. -/
theorem Compiles.tidy (haccepted : catalog.Accepted) {parent : Option (Model × Task)}
    {nodes : Record} {branches : List Branch} {reports : List String}
    (h : catalog.Compiles parent nodes branches reports)
    (hparent : ∀ home p, parent = some (home, p) → home ∈ catalog.models) : Branch.Tidy branches := by
  induction h with
  | nil => exact .nil
  | unresolved _ _ ih => exact .node (by simp) .nil (ih hparent)
  | refused _ _ _ ih => exact .node (by simp) .nil (ih hparent)
  | misruled _ _ _ _ ih => exact .node (by simp) .nil (ih hparent)
  | broken _ _ _ _ _ _ _ _ ih => exact .node (by simp) .nil (ih hparent)
  | @grown _ _ _ model _ ruled fields _ nested _ _ _ hopens _ hrules hnested _ ihnested ih =>
    refine .node (fun branch hbranch key htemporary hsegment => ?_)
      (ihnested fun home p hp => ?_) (ih hparent)
    · have hrule : catalog.hasRule model key = false :=
        not_hasRule_of_mem (hnested.mem_keys hbranch hsegment)
      cases hlisted : (Branch.widen ruled nested).addJoinFields.fields with
      | none =>
        have hnone : (Branch.widen ruled nested).addJoinFields.temporarySources = [] := by
          simp [Task.temporarySources, hlisted]
        cases hnone ▸ htemporary
      | some listed =>
        obtain ⟨field, hfield, hdropped, hsource⟩ := (Task.mem_temporarySources hlisted).1 htemporary
        have hcolumn :=
          ((fields_grown haccepted hopens hparent hrules hnested hlisted).1.temporary field hfield
            hdropped).2.1
        rw [hsource, hasColumn_of_not_hasRule hrule] at hcolumn
        cases hcolumn
    · obtain ⟨rfl, rfl⟩ := Prod.mk.inj (Option.some.inj hp)
      exact (opens_ok hopens).1

/-- **No key of a nested node is that of a temporary field.** -/
theorem tidy_forest (haccepted : catalog.Accepted) (request : Record) :
    Branch.Tidy (catalog.forest request) :=
  (compiles_forest catalog request).tidy haccepted (by simp)

end Catalog

end NestedQuery
