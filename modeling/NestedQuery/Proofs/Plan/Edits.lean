import NestedQuery.Proofs.Plan.Written
import NestedQuery.Proofs.SortedMap
/-!
# Rules as edits

A rule that goes well writes one thing into the task: the listing, the
sort, the page with the path that goes with it, or the constraint of one
column. What it writes depends on the value alone, and on whether the
task stands for a list (`Rule.exists_edit`); nothing is read that
another rule wrote.

Keys that differ write different things, for a directive has one key and
a column goes by its own. So two fields of a node may change places
(`Catalog.Passes.comm`), and the rules make of a task what they make of
it in any order of the fields (`Catalog.applyRules_perm`).
-/

namespace NestedQuery

open scoped List

/-! ## Edits -/

/-- What a rule writes into a task. -/
inductive Edit where
  | keep
  | fields (listed : List Field)
  | sort (order : List SortKey)
  | page (shown : Page)
  | constrain (name : String) (constraint : Constraint)

namespace Edit

/-- Carries out an edit. -/
def apply (defaults : PageDefaults) (task : Task) : Edit → Task
  | keep => task
  | fields listed => { task with fields := some listed }
  | sort order => { task with sort := some order }
  | page shown => { task with path := Rule.pagedPath defaults shown task.path, page := some shown }
  | constrain name constraint => task.constrain name constraint

/-- Edits that write different things. -/
def Apart : Edit → Edit → Prop
  | fields _, fields _ | sort _, sort _ | page _, page _ => False
  | constrain name _, constrain other _ => name ≠ other
  | _, _ => True

@[simp] theorem batch_apply (defaults : PageDefaults) (task : Task) (edit : Edit) :
    (edit.apply defaults task).batch = task.batch := by
  cases edit <;> rfl

/-- **Edits that write different things may change places.** -/
theorem apply_comm {first second : Edit} (h : first.Apart second) (defaults : PageDefaults)
    (task : Task) :
    second.apply defaults (first.apply defaults task) =
      first.apply defaults (second.apply defaults task) := by
  cases first with
  | constrain name constraint =>
    cases second with
    | constrain other more =>
      simp only [apply, Task.constrain, Option.getD_some]
      rw [SortedMap.insert_comm _ h]
    | keep | fields _ | sort _ | page _ => rfl
  | keep => rfl
  | fields _ | sort _ | page _ => cases second <;> first | rfl | exact h.elim

end Edit

/-! ## What rules write -/

namespace Rule

/-- An edit is of the kind that a rule writes under a key. -/
def Writes (rule : Rule) (key : String) : Edit → Prop
  | .keep => rule = .model
  | .fields _ => rule = .field
  | .sort _ => rule = .sort
  | .page _ => rule = .pagination
  | .constrain name _ => name = key ∧ ∃ type, rule = .column type

variable {rule : Rule} {model : Model} {settings : Settings} {key : String} {value : Json}
  {task task' : Task}

/-- **What a rule writes does not depend on the task**, but for whether the task stands for a
list. -/
theorem exists_edit (h : rule.apply model settings key value task = .ok task') :
    ∃ edit, rule.Writes key edit ∧ task' = edit.apply settings.pagination task ∧
      ∀ other : Task, other.batch.isGroup = task.batch.isGroup →
        rule.apply model settings key value other = .ok (edit.apply settings.pagination other) := by
  simp only [apply_ok_iff] at h ⊢
  cases rule with
  | model =>
    obtain rfl := (Prod.mk.inj h).1
    exact ⟨.keep, rfl, rfl, fun other _ => rfl⟩
  | field =>
    obtain ⟨spec, listed, rfl, hentries, hread, rfl⟩ := applyField_ok h
    refine ⟨.fields (withSpecial model listed), rfl, rfl, fun other _ => ?_⟩
    cases hlist : entries spec with
    | nil => exact absurd hlist hentries
    | cons entry rest =>
      rw [hlist] at hread
      simp only [applyTo, applyField, hlist, hread]
      rfl
  | sort =>
    cases value with
    | str spec =>
      obtain rfl := (Prod.mk.inj h).1
      exact ⟨.sort _, rfl, rfl, fun other _ => rfl⟩
    | null | bool _ | num _ | arr _ | obj _ => cases h
  | pagination =>
    obtain ⟨page, hpage, rfl⟩ := applyPagination_ok h
    refine ⟨.page page, rfl, rfl, fun other _ => ?_⟩
    simp only [applyTo, applyPagination, hpage]
    rfl
  | column type =>
    obtain ⟨constraint, hread, rfl⟩ := applyColumn_read h
    refine ⟨.constrain key constraint, ⟨rfl, type, rfl⟩, rfl, fun other hgroup => ?_⟩
    simp only [applyTo, applyColumn_eq, hgroup, hread]
    rfl

end Rule

/-- **Different keys write different things.** -/
theorem Rule.apart_of_keys {model : Model} {keys : DirectiveKeys} {key other : String}
    {rule second : Rule} (hrule : model.rule? keys key = some rule)
    (hsecond : model.rule? keys other = some second) (hne : key ≠ other) {edit more : Edit}
    (hedit : rule.Writes key edit) (hmore : second.Writes other more) : edit.Apart more := by
  have hdirective : ∀ directive : Rule, rule = directive → second = directive →
      directive.directive? keys = none := by
    rintro directive rfl rfl
    refine Option.eq_none_iff_forall_not_mem.2 fun name hname => hne ?_
    rw [Model.key_of_directive hrule name hname, Model.key_of_directive hsecond name hname]
  cases edit with
  | constrain name constraint =>
    cases more with
    | constrain name' constraint' =>
      obtain ⟨rfl, -⟩ := hedit
      obtain ⟨rfl, -⟩ := hmore
      exact hne
    | keep | fields _ | sort _ | page _ => trivial
  | keep => cases more <;> trivial
  | fields listed =>
    cases more with
    | fields _ => cases hdirective .field hedit hmore
    | keep | sort _ | page _ | constrain _ _ => trivial
  | sort order =>
    cases more with
    | sort _ => cases hdirective .sort hedit hmore
    | keep | fields _ | page _ | constrain _ _ => trivial
  | page shown =>
    cases more with
    | page _ => cases hdirective .pagination hedit hmore
    | keep | fields _ | sort _ | constrain _ _ => trivial

/-! ## Fields in any order -/

namespace Catalog

variable {catalog : Catalog} {model : Model} {task mid last ruled : Task} {fields fields' : Record}

/-- A field of a node goes well: it is not null, and its rule, if it has one, changes the task. -/
def Passes (catalog : Catalog) (model : Model) (field : String × Json) (task task' : Task) : Prop :=
  field.2.isNull = false ∧
    match model.rule? catalog.settings.keys field.1 with
    | none => task' = task
    | some rule => rule.apply model catalog.settings field.1 field.2 task = .ok task'

/-- The rules of a node go well if one field after the other does. -/
theorem applyRules_cons_iff {field : String × Json} :
    catalog.applyRules model task (field :: fields) = (ruled, none) ↔
      ∃ mid, catalog.Passes model field task mid ∧
        catalog.applyRules model mid fields = (ruled, none) := by
  obtain ⟨key, value⟩ := field
  rw [applyRules]
  cases hnull : value.isNull with
  | true => simp [Passes, hnull]
  | false =>
    cases hrule : model.rule? catalog.settings.keys key with
    | none => simp [Passes, hnull, hrule]
    | some rule =>
      -- a rule that fails leaves no task to go on with
      simp only [Passes, hnull, hrule, Rule.apply_ok_iff, Bool.false_eq_true, if_false, true_and]
      cases happly : rule.applyTo model catalog.settings key value task with
      | mk left fault => cases fault <;> simp

/-- **Two fields may change places.** -/
theorem Passes.comm {first second : String × Json} (hne : first.1 ≠ second.1)
    (h : catalog.Passes model first task mid) (h' : catalog.Passes model second mid last) :
    ∃ other, catalog.Passes model second task other ∧ catalog.Passes model first other last := by
  obtain ⟨hnull, hfirst⟩ := h
  obtain ⟨hnull', hsecond⟩ := h'
  unfold Passes
  cases hrule : model.rule? catalog.settings.keys first.1 with
  | none =>
    simp only [hrule] at hfirst
    subst hfirst
    exact ⟨last, ⟨hnull', hsecond⟩, hnull, rfl⟩
  | some rule =>
    cases hother : model.rule? catalog.settings.keys second.1 with
    | none =>
      simp only [hother] at hsecond
      subst hsecond
      simp only [hrule] at hfirst
      exact ⟨task, ⟨hnull', rfl⟩, hnull, hfirst⟩
    | some more =>
      simp only [hrule] at hfirst
      simp only [hother] at hsecond
      obtain ⟨edit, hedit, rfl, happly⟩ := Rule.exists_edit hfirst
      obtain ⟨next, hnext, rfl, happly'⟩ := Rule.exists_edit hsecond
      have hapart := Rule.apart_of_keys hrule hother hne hedit hnext
      refine ⟨next.apply catalog.settings.pagination task, ⟨hnull', happly' task (by simp)⟩, hnull, ?_⟩
      rw [Edit.apply_comm hapart]
      exact happly _ (by simp)

/-- **The rules make the same of a task in any order of the fields**, if they go well. -/
theorem applyRules_perm (hperm : fields ~ fields') (hfields : (Keyed.keys fields).Nodup)
    (h : catalog.applyRules model task fields = (ruled, none)) :
    catalog.applyRules model task fields' = (ruled, none) := by
  induction hperm generalizing task with
  | nil => exact h
  | cons field _ ih =>
    obtain ⟨mid, hpasses, hrest⟩ := applyRules_cons_iff.1 h
    exact applyRules_cons_iff.2 ⟨mid, hpasses, ih (List.nodup_cons.1 hfields).2 hrest⟩
  | swap first second rest =>
    obtain ⟨mid, hsecond, h⟩ := applyRules_cons_iff.1 h
    obtain ⟨last, hfirst, hrest⟩ := applyRules_cons_iff.1 h
    have hne : second.1 ≠ first.1 := fun heq =>
      (List.nodup_cons.1 hfields).1 (heq ▸ List.mem_cons_self ..)
    obtain ⟨other, hfirst, hsecond⟩ := hsecond.comm hne hfirst
    exact applyRules_cons_iff.2 ⟨other, hfirst, applyRules_cons_iff.2 ⟨last, hsecond, hrest⟩⟩
  | trans hfirst _ ih ih' =>
    exact ih' ((hfirst.map Prod.fst).nodup hfields) (ih hfields h)

end Catalog

end NestedQuery
