import NestedQuery.Proofs.Plan.Edits
import NestedQuery.Proofs.Schema.Accepted
/-!
# Rules keep apart

Each rule owns a part of the task: the listing, the sort, the page with
one more segment of the path, or the constraint of one column. It writes
there or fails, and when it fails nothing was written. What it does is
told by the key, the value and whether the task stands for a list, and
no rule writes the latter. So rules of different keys do not notice each
other, in whatever order they come, and to apply a rule once more
changes nothing (`Catalog.rules_separate`).
-/

namespace NestedQuery

/-! ## Edits -/

namespace Edit

/-- A page is entered once. -/
theorem pagedPath_pagedPath (defaults : PageDefaults) (page : Page) (path : NodePath) :
    Rule.pagedPath defaults page (Rule.pagedPath defaults page path) =
      Rule.pagedPath defaults page path := by
  by_cases h : page.enabled ∧ defaults.key ∉ path.keys
  · have hpaged : Rule.pagedPath defaults page path =
        { path with keys := path.keys ++ [defaults.key] } := if_pos h
    rw [hpaged, Rule.pagedPath, if_neg (by simp)]
  · have hsame : Rule.pagedPath defaults page path = path := if_neg h
    rw [hsame, hsame]

/-- **An edit that was made is made again without effect.** -/
theorem apply_apply (edit : Edit) (defaults : PageDefaults) (task : Task) :
    edit.apply defaults (edit.apply defaults task) = edit.apply defaults task := by
  cases edit with
  | page shown => simp only [apply, pagedPath_pagedPath]
  | constrain name constraint =>
    simp only [apply, Task.constrain, Option.getD_some, SortedMap.insert_insert]
  | keep | fields _ | sort _ => rfl

end Edit

/-! ## What a rule owns -/

namespace Rule

/-- Between two tasks nothing differs but what a rule under a key owns. -/
def Owns (rule : Rule) (key : String) (task task' : Task) : Prop :=
  match rule with
  | .model => task' = task
  | .field => task' = { task with fields := task'.fields }
  | .sort => task' = { task with sort := task'.sort }
  | .pagination =>
    task' = { task with page := task'.page, path := { task.path with keys := task'.path.keys } } ∧
      (task'.path.keys = task.path.keys ∨
        ∃ segment, task'.path.keys = task.path.keys ++ [segment])
  | .column _ =>
    task' = { task with filter := task'.filter } ∧
      ∀ other, other ≠ key → task'.constraint? other = task.constraint? other

variable {rule : Rule} {model : Model} {settings : Settings} {key : String} {value : Json}
  {task task' : Task}

/-- What a rule writes is its own. -/
theorem Writes.owns {edit : Edit} (h : rule.Writes key edit) (defaults : PageDefaults)
    (task : Task) : rule.Owns key task (edit.apply defaults task) := by
  cases edit with
  | keep =>
    obtain rfl : rule = .model := h
    rfl
  | fields listed =>
    obtain rfl : rule = .field := h
    rfl
  | sort order =>
    obtain rfl : rule = .sort := h
    rfl
  | page shown =>
    obtain rfl : rule = .pagination := h
    simp only [Owns, Edit.apply, pagedPath]
    split
    · exact ⟨rfl, Or.inr ⟨defaults.key, rfl⟩⟩
    · exact ⟨rfl, Or.inl rfl⟩
  | constrain name constraint =>
    obtain ⟨rfl, type, rfl⟩ := h
    refine ⟨rfl, fun other hother => ?_⟩
    rw [Edit.apply, Task.constraint?_constrain, if_neg hother.symm]

/-- **A rule fails of itself**: with the same fault on every task that stands for a list alike. -/
theorem apply_error_congr {fault : RuleFault} {other : Task}
    (hgroup : other.batch.isGroup = task.batch.isGroup)
    (h : rule.apply model settings key value task = .error fault) :
    rule.apply model settings key value other = .error fault := by
  -- only in a column does a fault depend on the task: several values are for a list alone
  rw [apply_error_iff] at h ⊢
  cases rule with
  | model => cases (Prod.mk.inj h).2
  | field =>
    cases value with
    | str spec =>
      simp only [applyTo, applyField] at h ⊢
      cases hentries : entries spec with
      | nil => simpa [hentries] using h
      | cons entry rest =>
        simp only [hentries] at h ⊢
        cases hread : readFields model [] (entry :: rest) with
        | error found => simpa [hread] using h
        | ok listed => simp [hread] at h
    | null | bool _ | num _ | arr _ | obj _ => simpa [applyTo, applyField] using h
  | sort =>
    cases value with
    | str spec => cases (Prod.mk.inj h).2
    | null | bool _ | num _ | arr _ | obj _ => simpa [applyTo, applySort] using h
  | pagination =>
    cases hpage : readPage settings.pagination value with
    | error found => simpa [applyTo, applyPagination, hpage] using h
    | ok page => simp [applyTo, applyPagination, hpage] at h
  | column type =>
    cases hread : type.read? task.batch.isGroup value with
    | none => simpa [applyTo, applyColumn_eq, hgroup, hread] using h
    | some constraint => simp [applyTo, applyColumn_eq, hread] at h

end Rule

/-! ## Rules of two keys -/

namespace Catalog

/-- How the rule of a field of a node works on a task, alone and next to that of another field. -/
structure Separates (catalog : Catalog) (model : Model) (task : Task) (rule second : Rule)
    (field other : String × Json) : Prop where
  /-- Where the rule fails, it leaves the task as it was, and no field behind it is applied. -/
  atomic : ∀ left fault,
    rule.applyTo model catalog.settings field.1 field.2 task = (left, some fault) →
    left = task ∧ ∀ rest, (catalog.applyRules model task (field :: rest)).1 = task
  /-- Otherwise only what the rule owns is changed. -/
  owned : ∀ task', rule.apply model catalog.settings field.1 field.2 task = .ok task' →
    rule.Owns field.1 task task'
  /-- To apply the rule again changes nothing more. -/
  again : ∀ task', rule.apply model catalog.settings field.1 field.2 task = .ok task' →
    rule.apply model catalog.settings field.1 field.2 task' = .ok task'
  /-- Whether it fails, and how, is the same behind the other rule. -/
  unaffected : ∀ mid, second.apply model catalog.settings other.1 other.2 task = .ok mid →
    ∀ fault, rule.apply model catalog.settings field.1 field.2 mid = .error fault ↔
      rule.apply model catalog.settings field.1 field.2 task = .error fault
  /-- If neither fails, both orders are possible and make the same task. -/
  exchanged : ∀ first mid, rule.apply model catalog.settings field.1 field.2 task = .ok first →
    second.apply model catalog.settings other.1 other.2 task = .ok mid →
    ∃ last, second.apply model catalog.settings other.1 other.2 first = .ok last ∧
      rule.apply model catalog.settings field.1 field.2 mid = .ok last

/-- **The rules of different keys keep apart**, and each of them writes all it has to write or
nothing, once and for all. -/
theorem rules_separate (catalog : Catalog) (model : Model) (task : Task)
    {field other : String × Json} (hne : field.1 ≠ other.1) {rule second : Rule}
    (hrule : model.rule? catalog.settings.keys field.1 = some rule)
    (hsecond : model.rule? catalog.settings.keys other.1 = some second) :
    catalog.Separates model task rule second field other := by
  constructor
  · intro left fault hfault
    obtain rfl := Rule.eq_of_applyTo hfault
    refine ⟨rfl, fun rest => ?_⟩
    rw [applyRules, hrule]
    split
    · rfl
    · simp only [hfault]
  · intro task' happly
    obtain ⟨edit, hwrites, rfl, -⟩ := Rule.exists_edit happly
    exact hwrites.owns _ task
  · intro task' happly
    obtain ⟨edit, -, rfl, hsame⟩ := Rule.exists_edit happly
    have hagain := hsame (edit.apply catalog.settings.pagination task) (by simp)
    rwa [Edit.apply_apply] at hagain
  · intro mid hmid fault
    obtain ⟨edit, -, rfl, -⟩ := Rule.exists_edit hmid
    exact ⟨Rule.apply_error_congr (by simp), Rule.apply_error_congr (by simp)⟩
  · intro first mid hfirst hmid
    obtain ⟨edit, hedit, rfl, happly⟩ := Rule.exists_edit hfirst
    obtain ⟨more, hmore, rfl, happly'⟩ := Rule.exists_edit hmid
    refine ⟨_, happly' _ (by simp), ?_⟩
    rw [Edit.apply_comm (Rule.apart_of_keys hrule hsecond hne hedit hmore)]
    exact happly _ (by simp)

end Catalog

namespace Library

/-- Authors, with one key for sort and pagination, and the page under the key of a column. -/
def crowded : Catalog :=
  let settings : Settings :=
    { keys := { sort := "@page", pagination := "@page" }, pagination := { key := "name" } }
  (Catalog.empty settings).enter author ⟨by decide, by decide, by decide⟩

end Library

theorem Catalog.rules_separate_crowded :
    "@page" ≠ "name" ∧
    Library.author.rule? Library.crowded.settings.keys "@page" = some .pagination ∧
    Library.author.rule? Library.crowded.settings.keys "name" = some (.column .string) ∧
    Library.crowded.Separates Library.author (.start ⟨Library.author, true⟩ "name" none none)
      .pagination (.column .string) ("@page", .bool true) ("name", .arr [.str "Ann"]) :=
  ⟨by decide, by decide, by decide,
    rules_separate Library.crowded Library.author (.start ⟨Library.author, true⟩ "name" none none)
      (by decide) (by decide) (by decide)⟩

end NestedQuery
