import NestedQuery.Proofs.Plan.Reordering
import NestedQuery.Proofs.Plan.Sound
/-!
# Where the rules of a node stop

The rules stop at the first field at fault. Whether a field is at fault
is a matter of this field alone (`Catalog.clears_congr`), so the order of
the fields does not decide whether there is one; but it decides which
fields come before it, and these are all that a task was made of
(`Catalog.applyRules_cleared`).

One of them can move the task: an enabled page. So a task that failed
stands under the key of its node, or under the page key below it
(`Catalog.keys_stopped`).
-/

namespace NestedQuery

open scoped List

namespace Catalog

/-! ## The fields before the first fault -/

/-- A field of a node is not at fault. -/
def clears (catalog : Catalog) (model : Model) (start : Task) (field : String × Json) : Bool :=
  (catalog.applyRules model start [field]).2.isNone

/-- The fields before the first at fault. -/
def cleared (catalog : Catalog) (model : Model) (start : Task) (fields : Record) : Record :=
  fields.takeWhile (catalog.clears model start)

variable {catalog : Catalog} {model : Model} {start task mid ruled : Task} {field : String × Json}
  {fields fields' : Record}

theorem extends_of_rules {fault : Option Fault}
    (h : catalog.applyRules model start fields = (ruled, fault)) : ruled.Extends start := by
  have hextends := catalog.applyRules_extends model start fields
  rwa [h] at hextends

/-- The rules go on behind a field that goes well. -/
theorem Passes.applyRules_eq (h : catalog.Passes model field start mid) (rest : Record) :
    catalog.applyRules model start (field :: rest) = catalog.applyRules model mid rest := by
  obtain ⟨key, value⟩ := field
  obtain ⟨hnull, hrule⟩ := h
  rw [applyRules, if_neg (by simpa using hnull)]
  cases hkey : model.rule? catalog.settings.keys key with
  | none =>
    simp only [hkey] at hrule
    rw [hrule]
  | some rule =>
    simp only [hkey, Rule.apply_ok_iff] at hrule
    simp only [hrule]

theorem clears_iff_exists :
    catalog.clears model start field = true ↔ ∃ mid, catalog.Passes model field start mid := by
  rw [clears, Option.isNone_iff_eq_none]
  constructor
  · intro hnone
    obtain ⟨mid, hpasses, -⟩ := applyRules_cons_iff.1 (Prod.ext rfl hnone)
    exact ⟨mid, hpasses⟩
  · rintro ⟨mid, hpasses⟩
    rw [hpasses.applyRules_eq]
    rfl

/-- And stop at one that does not, which leaves the task as it is. -/
theorem applyRules_of_not_clears (h : catalog.clears model start field = false) (rest : Record) :
    ∃ fault, catalog.applyRules model start (field :: rest) = (start, some fault) := by
  obtain ⟨key, value⟩ := field
  rw [clears] at h
  rw [applyRules] at h ⊢
  split
  · exact ⟨_, rfl⟩
  · next hnull =>
    rw [if_neg hnull] at h
    cases hkey : model.rule? catalog.settings.keys key with
    | none =>
      rw [hkey] at h
      cases h
    | some rule =>
      cases happly : rule.applyTo model catalog.settings key value start with
      | mk left fault =>
        cases fault with
        | some fault =>
          obtain rfl := Rule.eq_of_applyTo happly
          exact ⟨.directive key fault, by simp only [happly]⟩
        | none =>
          simp only [hkey, happly] at h
          cases h

/-- A field leaves a task as many records as it may be about. -/
theorem Passes.batch_eq (h : catalog.Passes model field start mid) : mid.batch = start.batch := by
  exact (extends_of_rules (h.applyRules_eq [])).batch

/-- **Whether a field is at fault does not depend on what was made of the task before.** -/
theorem clears_congr (hbatch : task.batch = start.batch) :
    catalog.clears model task = catalog.clears model start := by
  have hclears : ∀ {one other : Task} {field : String × Json}, other.batch = one.batch →
      catalog.clears model one field = true → catalog.clears model other field = true := by
    intro one other field hbatch hone
    obtain ⟨made, hnull, hmade⟩ := clears_iff_exists.1 hone
    refine clears_iff_exists.2 ?_
    cases hrule : model.rule? catalog.settings.keys field.1 with
    | none => exact ⟨other, hnull, by simp only [hrule]⟩
    | some rule =>
      simp only [hrule] at hmade
      obtain ⟨edit, -, -, happly⟩ := Rule.exists_edit hmade
      refine ⟨edit.apply catalog.settings.pagination other, hnull, ?_⟩
      simp only [hrule]
      exact happly other (congrArg Batch.isGroup hbatch)
  exact funext fun field => Bool.eq_iff_iff.2 ⟨hclears hbatch.symm, hclears hbatch⟩

/-- The fault of a node is that of its first field at fault, if it has one. -/
theorem fault_eq_none_iff : (catalog.applyRules model start fields).2 = none ↔
    ∀ field ∈ fields, catalog.clears model start field = true := by
  induction fields generalizing start with
  | nil => exact iff_of_true rfl fun _ hmem => nomatch hmem
  | cons field rest ih =>
    rw [List.forall_mem_cons]
    cases hclears : catalog.clears model start field with
    | true =>
      obtain ⟨mid, hpasses⟩ := clears_iff_exists.1 hclears
      rw [hpasses.applyRules_eq, ih, clears_congr hpasses.batch_eq]
      exact (and_iff_right rfl).symm
    | false =>
      obtain ⟨fault, hfault⟩ := applyRules_of_not_clears hclears rest
      simp [hfault]

/-- **The order of the fields does not decide whether the rules meet a fault.** -/
theorem exists_fault_perm (hperm : fields ~ fields') {fault : Fault}
    (h : catalog.applyRules model start fields = (ruled, some fault)) :
    ∃ ruled' fault', catalog.applyRules model start fields' = (ruled', some fault') := by
  have hfault : (catalog.applyRules model start fields').2 ≠ none := by
    rw [Ne, fault_eq_none_iff]
    intro hclears
    have hnone := fault_eq_none_iff.2 fun field hmem => hclears field (hperm.mem_iff.1 hmem)
    rw [h] at hnone
    cases hnone
  obtain ⟨fault', hfault'⟩ := Option.ne_none_iff_exists'.1 hfault
  exact ⟨_, fault', Prod.ext rfl hfault'⟩

/-- **What the rules make of a task, they make of it before the first fault.** -/
theorem applyRules_cleared (catalog : Catalog) (model : Model) (start : Task) (fields : Record) :
    catalog.applyRules model start (catalog.cleared model start fields) =
      ((catalog.applyRules model start fields).1, none) := by
  induction fields generalizing start with
  | nil => rfl
  | cons field rest ih =>
    rw [cleared]
    cases hclears : catalog.clears model start field with
    | true =>
      obtain ⟨mid, hpasses⟩ := clears_iff_exists.1 hclears
      rw [List.takeWhile_cons_of_pos hclears, hpasses.applyRules_eq, hpasses.applyRules_eq, ← ih mid,
        cleared, clears_congr hpasses.batch_eq]
    | false =>
      obtain ⟨fault, hfault⟩ := applyRules_of_not_clears hclears rest
      rw [List.takeWhile_cons_of_neg (by simp [hclears]), hfault]
      rfl

/-! ## The page among them -/

/-- Some fields turn to a page: they ask for one that can be read and is enabled. -/
def turnsPage (catalog : Catalog) (fields : Record) : Bool :=
  match Keyed.get? fields catalog.settings.keys.pagination with
  | some value =>
    match Rule.readPage catalog.settings.pagination value with
    | .ok page => page.enabled
    | .error _ => false
  | none => false

/-- **Rules that go well leave a task where it is**, or put it below the page key if there is a page to
turn to. -/
theorem keys_of_rules (hfields : (Keyed.keys fields).Nodup)
    (h : catalog.applyRules model task fields = (ruled, none)) :
    ruled.path.keys =
      if catalog.turnsPage fields = true ∧ catalog.settings.pagination.key ∉ task.path.keys then
        task.path.keys ++ [catalog.settings.pagination.key]
      else task.path.keys := by
  induction fields generalizing task with
  | nil =>
    obtain ⟨rfl, -⟩ := Prod.mk.inj h
    rfl
  | cons field rest ih =>
    obtain ⟨mid, ⟨hnull, hpasses⟩, hrest⟩ := applyRules_cons_iff.1 h
    obtain ⟨hkey, hnodup⟩ := List.nodup_cons.1 hfields
    have hkeys := ih hnodup hrest
    by_cases hpagination : field.1 = catalog.settings.keys.pagination
    · -- no field behind it has this key
      have hnone : Keyed.get? rest catalog.settings.keys.pagination = none :=
        (Keyed.get?_eq_none_iff ..).2 (hpagination ▸ hkey)
      have hrule : model.rule? catalog.settings.keys field.1 = some .pagination := if_pos hpagination
      simp only [hrule, Rule.apply_ok_iff] at hpasses
      obtain ⟨page, hpage, rfl⟩ := Rule.applyPagination_ok hpasses
      have hturns : catalog.turnsPage (field :: rest) = page.enabled := by
        rw [turnsPage, Keyed.get?_cons, if_pos hpagination]
        simp only [hpage]
      have hbehind : catalog.turnsPage rest = false := by rw [turnsPage, hnone]
      rw [hkeys, hbehind, hturns, if_neg (by simp)]
      simp only [Rule.pagedPath]
      split <;> rfl
    · have hturns : catalog.turnsPage (field :: rest) = catalog.turnsPage rest := by
        rw [turnsPage, Keyed.get?_cons, if_neg hpagination, turnsPage]
      have hpath : mid.path = task.path := by
        cases hrule : model.rule? catalog.settings.keys field.1 with
        | none =>
          simp only [hrule] at hpasses
          rw [hpasses]
        | some rule =>
          simp only [hrule] at hpasses
          have hne : rule ≠ .pagination := fun heq =>
            hpagination (Model.key_of_directive (heq ▸ hrule) _ rfl)
          exact (Rule.apply_path hne (Rule.apply_ok_iff.1 hpasses)).1
      rw [hkeys, hturns, hpath]

/-- **A task stands where the fields before the first fault put it.** -/
theorem keys_stopped (hfields : (Keyed.keys fields).Nodup) :
    (catalog.applyRules model start fields).1.path.keys =
      if catalog.turnsPage (catalog.cleared model start fields) = true ∧
          catalog.settings.pagination.key ∉ start.path.keys then
        start.path.keys ++ [catalog.settings.pagination.key]
      else start.path.keys :=
  keys_of_rules (hfields.sublist ((List.takeWhile_sublist _).map Prod.fst))
    (catalog.applyRules_cleared model start fields)

end Catalog

end NestedQuery
