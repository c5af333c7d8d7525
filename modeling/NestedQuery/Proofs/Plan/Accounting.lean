import NestedQuery.Proofs.Plan.Sound
import NestedQuery.Proofs.Text.Dotted
/-!
# Reports and failed tasks

A node that fails keeps its task and loses what was compiled below it,
but what was reported there stays reported. So the list of reports and
the list of tasks drift apart, and what keeps them together is a ledger:
each report belongs to one task, and this task is a failed one of the
plan or was lost with one (`Catalog.Drops`), below which it stood.

The ledger is kept node by node. A node that fails by itself adds one
entry, a node that breaks on a nested one passes the entries of what it
lost on to itself, and a node that goes well keeps those of the nodes
nested in it. Nothing fails without a report, and no report is about
anybody else (`Catalog.accounted`).
-/

namespace NestedQuery

open scoped List

/-! ## Entries -/

/-- A fault that compiling reported: the task that it is about, and the failed task with which this
one was lost, if it was. -/
structure Reported where
  task : Task
  fault : Fault
  host? : Option Task := none

namespace Reported

/-- The report. -/
def text (entry : Reported) : String := entry.task.path.text ++ ": " ++ entry.fault.message

/-- The task is a task of the plan. -/
def isKept (entry : Reported) : Bool := entry.host?.isNone

/-- The task is lost, with another one if it was lost before. -/
def lose (entry : Reported) (host : Task) : Reported := { entry with host? := some host }

@[simp] theorem isKept_lose (entry : Reported) (host : Task) : (entry.lose host).isKept = false := rfl

end Reported

namespace Task

theorem errors_of_unfailed {task : Task} (h : task.isFailed = false) : task.errors = [] := by
  simpa [isFailed] using h

/-- The tasks that have errors are the failed ones. -/
theorem flatMap_errors (tasks : List Task) :
    tasks.flatMap errors = (tasks.filter isFailed).flatMap errors := by
  induction tasks with
  | nil => rfl
  | cons task rest ih =>
    cases hfailed : task.isFailed with
    | false => simp [hfailed, errors_of_unfailed hfailed, ih]
    | true => simp [hfailed, ih]

end Task

/-! ## What is lost -/

/-- Whatever stands below a task has a path that goes on from that of the task. -/
theorem Branch.Fits.full_below {catalog : Catalog} {parent : Task} {branches : List Branch}
    (h : Fits catalog (some parent) branches) {task : Task} (hmem : task ∈ tasksOf branches) :
    ∃ more, more ≠ [] ∧ task.path.full = parent.path.full ++ more := by
  generalize hp : some parent = p at h
  induction h generalizing parent with
  | nil => simp at hmem
  | @node _ root nested rest hbelow _ _ _ ihnested ihrest =>
    subst hp
    rw [tasksOf_node, List.mem_cons, List.mem_append] at hmem
    rcases hmem with rfl | hmem | hmem
    · exact ⟨task.path.keys, hbelow.keys, hbelow.full_eq⟩
    · obtain ⟨more, -, hfull⟩ := ihnested hmem rfl
      exact ⟨root.path.keys ++ more, fun heq => hbelow.keys (List.append_eq_nil_iff.1 heq).1, by
        rw [hfull, hbelow.full_eq, List.append_assoc]⟩
    · exact ihrest hmem rfl

namespace Catalog

variable {catalog : Catalog} {parent : Option (Model × Task)} {key : String} {value : Json}
  {model : Model} {start ruled : Task} {fields nodes : Record} {nested : List Branch}
  {found : List String}

/-- What is compiled for nodes nested in another one stands below the task of that one. -/
theorem Compiles.fits_below (hopens : catalog.opens parent key value = .ok (model, start))
    (hrules : catalog.applyRules model start fields = (ruled, none))
    (h : catalog.Compiles (some (model, Branch.widen ruled nested)) nodes nested found) :
    Branch.Fits catalog (some (Branch.widen ruled nested)) nested := by
  have hext : ruled.Extends start := by
    simpa [hrules] using catalog.applyRules_extends model start fields
  obtain ⟨hmem, resolved, link, rfl, rfl, -⟩ := opens_ok hopens
  refine h.fits fun home p hp => ?_
  obtain ⟨rfl, rfl⟩ := Prod.mk.inj (Option.some.inj hp)
  refine ⟨hmem, ?_, fun branch hbranch link hlink => Branch.mem_widen hbranch hlink⟩
  rw [(Branch.widen_extends ruled nested).model, hext.model, Task.start_model]

/-- One of some nodes fails for a node nested in it. The failed task stays; the model and the task as
they were below, the nested nodes compiled before, and what these had compiled to are lost. -/
inductive Breaks (catalog : Catalog) (parent : Option (Model × Task)) (nodes : Record) :
    Task → Model × Task → Record → List Branch → Prop where
  | intro {key name : String} {value inner : Json} {model : Model} {start ruled : Task}
      {fields before after : Record} {fault : Fault} {lost : List Branch} {found : List String} :
      (key, value) ∈ nodes →
      catalog.opens parent key value = .ok (model, start) → value.nodeFields? = some fields →
      catalog.applyRules model start fields = (ruled, none) →
      catalog.nestedFields model fields = before ++ (name, inner) :: after →
      catalog.Compiles (some (model, Branch.widen ruled lost)) before lost found →
      catalog.resolveNested model name inner = .error fault →
      Breaks catalog parent nodes (Branch.fail (Branch.widen ruled lost) fault).1.root
        (model, Branch.widen ruled lost) before lost

/-- A failed task takes another one along, which was compiled for a node nested in its own and is
discarded. -/
inductive Drops (catalog : Catalog) : Option (Model × Task) → Record → Task → Task → Prop where
  | lost {parent : Option (Model × Task)} {nodes before : Record} {failed dropped : Task}
      {home : Model × Task} {lost : List Branch} :
      Breaks catalog parent nodes failed home before lost → dropped ∈ Branch.tasksOf lost →
      Drops catalog parent nodes failed dropped
  /-- It was taken along before by a task that is lost now. -/
  | again {parent : Option (Model × Task)} {nodes before : Record} {failed host dropped : Task}
      {home : Model × Task} {lost : List Branch} :
      Breaks catalog parent nodes failed home before lost → host ∈ Branch.tasksOf lost →
      Drops catalog (some home) before host dropped → Drops catalog parent nodes failed dropped
  /-- The failed task is below a node that goes well. -/
  | inside {parent : Option (Model × Task)} {nodes fields : Record} {key : String} {value : Json}
      {model : Model} {start ruled host dropped : Task} {nested : List Branch} {found : List String} :
      (key, value) ∈ nodes →
      catalog.opens parent key value = .ok (model, start) → value.nodeFields? = some fields →
      catalog.applyRules model start fields = (ruled, none) →
      catalog.Compiles (some (model, Branch.widen ruled nested)) (catalog.nestedFields model fields)
        nested found →
      Drops catalog (some (model, Branch.widen ruled nested)) (catalog.nestedFields model fields) host
        dropped →
      Drops catalog parent nodes host dropped

section

variable {failed host dropped : Task} {home : Model × Task} {before nodes' : Record}
  {lost : List Branch}

theorem Breaks.mono (h : catalog.Breaks parent nodes failed home before lost) (hsubset : nodes ⊆ nodes') :
    catalog.Breaks parent nodes' failed home before lost := by
  obtain ⟨hmem, hopens, hvalue, hrules, hsplit, hlost, hfault⟩ := h
  exact .intro (hsubset hmem) hopens hvalue hrules hsplit hlost hfault

theorem Drops.mono (h : catalog.Drops parent nodes host dropped) (hsubset : nodes ⊆ nodes') :
    catalog.Drops parent nodes' host dropped := by
  cases h with
  | lost hbreaks hmem => exact .lost (hbreaks.mono hsubset) hmem
  | again hbreaks hmem hdrops => exact .again (hbreaks.mono hsubset) hmem hdrops
  | inside hmem hopens hvalue hrules hnested hdrops =>
    exact .inside (hsubset hmem) hopens hvalue hrules hnested hdrops

/-- What is lost stands below the failed task. -/
theorem Breaks.below (h : catalog.Breaks parent nodes failed home before lost) :
    failed.path.keys ≠ [] ∧
      ∀ task ∈ Branch.tasksOf lost, ∃ more, more ≠ [] ∧ task.path.full = failed.path.full ++ more := by
  obtain @⟨key, _, _, _, model, start, ruled, fields, _, _, _, lost, _, -, hopens, -, hrules, -, hlost,
    -⟩ := h
  refine ⟨fun hnil => ?_, fun task hmem => (hlost.fits_below hopens hrules).full_below hmem⟩
  have hext : ruled.Extends start := by
    simpa [hrules] using catalog.applyRules_extends model start fields
  have hhead := head?_of_opens hopens ((Branch.widen_extends ruled lost).trans hext)
  rw [show (Branch.widen ruled lost).path.keys = [] from hnil] at hhead
  cases hhead

/-- **A task that was taken along stood below the failed one**, and its text goes on from that one's
behind a dot. -/
theorem Drops.text (h : catalog.Drops parent nodes host dropped) :
    ∃ more, more ≠ [] ∧ dropped.path.full = host.path.full ++ more ∧
      dropped.path.text = host.path.text ++ "." ++ Text.dotted more := by
  have hboth : host.path.keys ≠ [] ∧
      ∃ more, more ≠ [] ∧ dropped.path.full = host.path.full ++ more := by
    induction h with
    | lost hbreaks hmem => exact ⟨hbreaks.below.1, hbreaks.below.2 _ hmem⟩
    | again hbreaks hmem _ ih =>
      obtain ⟨hkeys, hbelow⟩ := hbreaks.below
      obtain ⟨first, hfirst, hhost⟩ := hbelow _ hmem
      obtain ⟨-, more, -, hdropped⟩ := ih
      exact ⟨hkeys, first ++ more, fun heq => hfirst (List.append_eq_nil_iff.1 heq).1, by
        rw [hdropped, hhost, List.append_assoc]⟩
    | inside _ _ _ _ _ _ ih => exact ih
  obtain ⟨hkeys, more, hmore, hfull⟩ := hboth
  exact ⟨more, hmore, hfull, by
    rw [NodePath.text, hfull, Text.dotted_append (Task.full_ne_nil hkeys) hmore]
    rfl⟩

end

/-! ## The ledger -/

/-- A ledger of what compiling some nodes reported, and whom it was about. -/
structure Accounts (catalog : Catalog) (parent : Option (Model × Task)) (nodes : Record)
    (branches : List Branch) (reports : List String) (entries : List Reported) : Prop where
  /-- The reports are those of the entries, in order. -/
  reports_eq : reports = entries.map Reported.text
  /-- The task of an entry has the report as its only error. -/
  own : ∀ entry ∈ entries, entry.task.errors = [entry.text]
  /-- The entries of tasks that were not lost are for the failed tasks, in order. -/
  kept : (entries.filter Reported.isKept).map Reported.task =
    (Branch.tasksOf branches).filter Task.isFailed
  /-- The others are for tasks that a failed one took along. -/
  lost : ∀ entry ∈ entries, ∀ host ∈ entry.host?,
    host ∈ (Branch.tasksOf branches).filter Task.isFailed ∧
      catalog.Drops parent nodes host entry.task
  /-- Nothing is nested in a failed task. -/
  childless : ∀ task ∈ (Branch.tasksOf branches).filter Task.isFailed, task.childCount = 0

namespace Accounts

variable {node : String × Json} {rest before : Record} {branch : Branch} {branches lost : List Branch}
  {own reports : List String} {entries more : List Reported} {home : Model × Task}

/-- An entry of a task that was not lost is for a failed task. -/
theorem mem_of_kept (h : catalog.Accounts parent nodes branches reports entries) {entry : Reported}
    (hmem : entry ∈ entries) (hhost : entry.host? = none) :
    entry.task ∈ (Branch.tasksOf branches).filter Task.isFailed := by
  rw [← h.kept]
  exact List.mem_map_of_mem (List.mem_filter.2 ⟨hmem, by simp [Reported.isKept, hhost]⟩)

theorem nil : catalog.Accounts parent [] [] [] [] :=
  ⟨rfl, by simp, by simp, by simp, by simp⟩

/-- A node in front of others. -/
theorem cons (h : catalog.Accounts parent [node] [branch] own entries)
    (h' : catalog.Accounts parent rest branches reports more) :
    catalog.Accounts parent (node :: rest) (branch :: branches) (own ++ reports) (entries ++ more) := by
  have htasks : (Branch.tasksOf (branch :: branches)).filter Task.isFailed =
      (Branch.tasksOf [branch]).filter Task.isFailed ++
        (Branch.tasksOf branches).filter Task.isFailed := by
    rw [← List.singleton_append, Branch.tasksOf_append, List.filter_append]
  refine ⟨?_, List.forall_mem_append.2 ⟨h.own, h'.own⟩, ?_, ?_, ?_⟩
  · rw [h.reports_eq, h'.reports_eq, List.map_append]
  · rw [htasks, List.filter_append, List.map_append, h.kept, h'.kept]
  · refine List.forall_mem_append.2 ⟨fun entry hmem host hhost => ?_, fun entry hmem host hhost => ?_⟩
    · obtain ⟨hkept, hdrops⟩ := h.lost entry hmem host hhost
      exact ⟨htasks ▸ List.mem_append_left _ hkept, hdrops.mono (by simp)⟩
    · obtain ⟨hkept, hdrops⟩ := h'.lost entry hmem host hhost
      exact ⟨htasks ▸ List.mem_append_right _ hkept, hdrops.mono (List.subset_cons_self ..)⟩
  · rw [htasks]
    exact List.forall_mem_append.2 ⟨h.childless, h'.childless⟩

/-- A node with one task, which failed. -/
theorem single {task : Task} {fault : Fault}
    (herrors : task.errors = [task.path.text ++ ": " ++ fault.message]) (hcount : task.childCount = 0) :
    catalog.Accounts parent [node] [.node task []] [task.path.text ++ ": " ++ fault.message]
      [⟨task, fault, none⟩] := by
  have hfailed : (Branch.tasksOf [.node task []]).filter Task.isFailed = [task] := by
    simp [Task.isFailed, herrors]
  refine ⟨rfl, List.forall_mem_singleton.2 herrors, ?_, by simp, ?_⟩
  · rw [hfailed]
    rfl
  · rw [hfailed]
    exact List.forall_mem_singleton.2 hcount

/-- A node that fails by itself. -/
theorem fail {task : Task} (herrors : task.errors = []) (fault : Fault) :
    catalog.Accounts parent [node] [(Branch.fail task fault).1] [(Branch.fail task fault).2]
      [⟨(Branch.fail task fault).1.root, fault, none⟩] := by
  have hown : (Branch.fail task fault).1.root.errors = [task.path.text ++ ": " ++ fault.message] := by
    rw [Branch.fail, Branch.root_node, herrors, List.nil_append]
  exact single hown rfl

/-- A node that breaks takes along what is compiled below it, and whom this had taken along. -/
theorem broken (h : catalog.Accounts (some home) before lost own entries) {task : Task} {fault : Fault}
    (herrors : task.errors = [])
    (hbreaks : catalog.Breaks parent [node] (Branch.fail task fault).1.root home before lost) :
    catalog.Accounts parent [node] [(Branch.fail task fault).1] (own ++ [(Branch.fail task fault).2])
      (entries.map (fun entry => entry.lose (Branch.fail task fault).1.root) ++
        [⟨(Branch.fail task fault).1.root, fault, none⟩]) := by
  have hself : catalog.Accounts parent [node] _ _ _ := fail herrors fault
  have hnone : (entries.map fun entry => entry.lose (Branch.fail task fault).1.root).filter
      Reported.isKept = [] := by
    refine List.filter_eq_nil_iff.2 fun entry hmem => ?_
    obtain ⟨old, -, rfl⟩ := List.mem_map.1 hmem
    simp
  refine ⟨?_, List.forall_mem_append.2 ⟨fun entry hmem => ?_, hself.own⟩, ?_,
    List.forall_mem_append.2 ⟨fun entry hmem host hhost => ?_, hself.lost⟩, hself.childless⟩
  · rw [List.map_append, List.map_map, h.reports_eq, hself.reports_eq]
    rfl
  · obtain ⟨old, hold, rfl⟩ := List.mem_map.1 hmem
    exact h.own old hold
  · rw [List.filter_append, hnone, List.nil_append, hself.kept]
  · obtain ⟨old, hold, rfl⟩ := List.mem_map.1 hmem
    obtain rfl := Option.some.inj hhost
    refine ⟨?_, ?_⟩
    · rw [← hself.kept]
      exact List.mem_singleton_self _
    · cases hhost? : old.host? with
      | none =>
        have hkept := h.mem_of_kept hold hhost?
        exact .lost hbreaks (List.mem_of_mem_filter hkept)
      | some before =>
        obtain ⟨hkept, hdrops⟩ := h.lost old hold before hhost?
        exact .again hbreaks (List.mem_of_mem_filter hkept) hdrops

/-- A node that goes well has the ledger of the nodes nested in it. -/
theorem grown (hopens : catalog.opens parent key value = .ok (model, start))
    (hvalue : value.nodeFields? = some fields)
    (hrules : catalog.applyRules model start fields = (ruled, none))
    (hnested : catalog.Compiles (some (model, Branch.widen ruled nested))
      (catalog.nestedFields model fields) nested found)
    (h : catalog.Accounts (some (model, Branch.widen ruled nested)) (catalog.nestedFields model fields)
      nested found entries) :
    catalog.Accounts parent [(key, value)]
      [.grow (Branch.widen ruled nested).addJoinFields nested] found entries := by
  have hroot : ({ (Branch.widen ruled nested).addJoinFields with
      childCount := (Branch.tasksOf nested).length } : Task).isFailed = false := by
    show (!(Branch.widen ruled nested).errors.isEmpty) = false
    rw [errors_grown hopens hrules]
    rfl
  have htasks : (Branch.tasksOf [.grow (Branch.widen ruled nested).addJoinFields nested]).filter
      Task.isFailed = (Branch.tasksOf nested).filter Task.isFailed := by
    rw [Branch.grow, Branch.tasksOf_node, Branch.tasksOf_nil, List.append_nil,
      List.filter_cons_of_neg (by simp [hroot])]
  refine ⟨h.reports_eq, h.own, htasks ▸ h.kept, fun entry hmem host hhost => ?_, htasks ▸ h.childless⟩
  obtain ⟨hkept, hdrops⟩ := h.lost entry hmem host hhost
  exact ⟨htasks ▸ hkept, .inside (List.mem_singleton_self _) hopens hvalue hrules hnested hdrops⟩

/-- A failed task has an entry. -/
theorem exists_entry (h : catalog.Accounts parent nodes branches reports entries) {task : Task}
    (hmem : task ∈ Branch.tasksOf branches) (hfailed : task.isFailed = true) :
    ∃ entry ∈ entries, entry.task = task := by
  have htask : task ∈ (entries.filter Reported.isKept).map Reported.task :=
    h.kept ▸ List.mem_filter.2 ⟨hmem, hfailed⟩
  obtain ⟨entry, hentry, rfl⟩ := List.mem_map.1 htask
  exact ⟨entry, List.mem_of_mem_filter hentry, rfl⟩

/-- The errors of the tasks are the texts of some entries, in order. -/
theorem sublist_errors (h : catalog.Accounts parent nodes branches reports entries) :
    (Branch.tasksOf branches).flatMap Task.errors <+ reports := by
  have htexts : ((entries.filter Reported.isKept).map Reported.task).flatMap Task.errors =
      (entries.filter Reported.isKept).map Reported.text := by
    rw [List.flatMap_map, List.map_eq_flatMap]
    exact List.flatMap_congr fun entry hmem => h.own entry (List.mem_of_mem_filter hmem)
  rw [Task.flatMap_errors, ← h.kept, htexts, h.reports_eq]
  exact List.filter_sublist.map _

/-- Nothing is reported exactly if nothing failed: even what was lost had a failed task to take it
along. -/
theorem reports_eq_nil_iff (h : catalog.Accounts parent nodes branches reports entries) :
    reports = [] ↔ ∀ task ∈ Branch.tasksOf branches, task.isFailed = false := by
  rw [h.reports_eq, List.map_eq_nil_iff]
  constructor
  · rintro rfl task hmem
    refine Bool.not_eq_true _ ▸ fun hfailed => ?_
    obtain ⟨entry, hentry, -⟩ := h.exists_entry hmem hfailed
    cases hentry
  · intro hall
    have hnone : (Branch.tasksOf branches).filter Task.isFailed = [] :=
      List.filter_eq_nil_iff.2 fun task hmem => by simp [hall task hmem]
    refine List.eq_nil_iff_forall_not_mem.2 fun entry hmem => ?_
    -- an entry is for a failed task or names one that took its task along
    have hfailed : ∃ task, task ∈ (Branch.tasksOf branches).filter Task.isFailed := by
      cases hhost : entry.host? with
      | none => exact ⟨_, h.mem_of_kept hmem hhost⟩
      | some host => exact ⟨_, (h.lost entry hmem host hhost).1⟩
    rw [hnone] at hfailed
    obtain ⟨task, htask⟩ := hfailed
    cases htask

end Accounts

/-- No rule puts an error into a task, whether the rules go well or not, and no column does. -/
theorem errors_of_opens (hopens : catalog.opens parent key value = .ok (model, start))
    (fields : Record) (lost : List Branch) :
    (Branch.widen (catalog.applyRules model start fields).1 lost).errors = [] := by
  obtain ⟨-, resolved, link, -, rfl, -⟩ := opens_ok hopens
  have hruled : Task.Ruled model _ (catalog.applyRules model _ fields).1 :=
    ruled_applyRules (Task.start_blank resolved key (parent.map Prod.snd) link).1 fields
  rw [(Branch.widen_fields ..).2.2, hruled.errors, Task.start_errors]

/-- **Compiling keeps a ledger.** -/
theorem Compiles.exists_accounts {branches : List Branch} {reports : List String}
    (h : catalog.Compiles parent nodes branches reports) :
    ∃ entries, catalog.Accounts parent nodes branches reports entries := by
  induction h with
  | nil => exact ⟨[], .nil⟩
  | unresolved _ _ ih =>
    obtain ⟨entries, hentries⟩ := ih
    exact ⟨_, (Accounts.single rfl rfl).cons hentries⟩
  | refused hopens _ _ ih =>
    obtain ⟨entries, hentries⟩ := ih
    exact ⟨_, (Accounts.fail (errors_of_opens hopens [] []) _).cons hentries⟩
  | @misruled _ _ _ _ _ _ fields _ _ _ _ hopens _ hrules _ ih =>
    obtain ⟨entries, hentries⟩ := ih
    have herrors := errors_of_opens hopens fields []
    rw [hrules] at herrors
    exact ⟨_, (Accounts.fail herrors _).cons hentries⟩
  | @broken _ _ _ _ _ _ _ _ fields _ _ _ _ lost _ _ _ hopens hvalue hrules hfields hlost hfault _
      ihlost ih =>
    obtain ⟨found, hfound⟩ := ihlost
    obtain ⟨entries, hentries⟩ := ih
    have herrors := errors_of_opens hopens fields lost
    rw [hrules] at herrors
    have hone := (hfound.broken herrors (.intro (List.mem_singleton_self _) hopens hvalue hrules hfields
      hlost hfault)).cons hentries
    rw [List.append_assoc] at hone
    exact ⟨_, hone⟩
  | grown hopens hvalue hrules hnested _ ihnested ih =>
    obtain ⟨found, hfound⟩ := ihnested
    obtain ⟨entries, hentries⟩ := ih
    exact ⟨_, (hfound.grown hopens hvalue hrules hnested).cons hentries⟩

/-! ## Plans -/

/-- The reports of a plan are accounted for by its tasks. -/
structure Accounted (catalog : Catalog) (request : Record) : Prop where
  /-- A task has one error at most. -/
  single : ∀ task ∈ (catalog.plan request).tasks, task.errors.length ≤ 1
  /-- Nothing is nested in a failed task. -/
  childless : ∀ task ∈ (catalog.plan request).tasks, task.isFailed = true → task.childCount = 0
  /-- The errors of the tasks are reported in the order of the tasks. -/
  ordered : (catalog.plan request).tasks.flatMap Task.errors <+ (catalog.plan request).errors
  /-- There is a ledger of all reports. Its entries for tasks of the plan are those of the failed
  tasks; each of the others is for a task that one of these took along, from below itself. -/
  ledger : ∃ entries : List Reported,
    (catalog.plan request).errors = entries.map Reported.text ∧
    (∀ entry ∈ entries, entry.task.errors = [entry.text]) ∧
    (entries.filter Reported.isKept).map Reported.task =
      (catalog.plan request).tasks.filter Task.isFailed ∧
    ∀ entry ∈ entries, ∀ host ∈ entry.host?,
      host ∈ (catalog.plan request).tasks ∧ host.isFailed = true ∧
      catalog.Drops none request host entry.task ∧
      ∃ more, more ≠ [] ∧ entry.task.path.text = host.path.text ++ "." ++ Text.dotted more
  /-- Nothing is reported exactly if no task failed. -/
  silent_iff : (catalog.plan request).errors = [] ↔
    ∀ task ∈ (catalog.plan request).tasks, task.isFailed = false

/-- **No failure is silent, and none is blamed on another task.** -/
theorem accounted (catalog : Catalog) (request : Record) : catalog.Accounted request := by
  obtain ⟨entries, haccounts⟩ := (compiles_forest catalog request).exists_accounts
  refine ⟨fun task hmem => ?_, fun task hmem hfailed => ?_, ?_,
    ⟨entries, haccounts.reports_eq, haccounts.own, ?_, fun entry hmem host hhost => ?_⟩, ?_⟩
  · rw [plan_tasks] at hmem
    cases hfailed : task.isFailed with
    | false => simp [Task.errors_of_unfailed hfailed]
    | true =>
      obtain ⟨entry, hentry, rfl⟩ := haccounts.exists_entry hmem hfailed
      rw [haccounts.own entry hentry]
      exact Nat.le_refl 1
  · rw [plan_tasks] at hmem
    exact haccounts.childless task (List.mem_filter.2 ⟨hmem, hfailed⟩)
  · rw [plan_tasks]
    exact haccounts.sublist_errors
  · rw [plan_tasks]
    exact haccounts.kept
  · obtain ⟨hkept, hdrops⟩ := haccounts.lost entry hmem host hhost
    obtain ⟨hhostMem, hfailed⟩ := List.mem_filter.1 hkept
    obtain ⟨more, hmore, -, htext⟩ := hdrops.text
    exact ⟨plan_tasks catalog request ▸ hhostMem, hfailed, hdrops, more, hmore, htext⟩
  · rw [plan_tasks]
    exact haccounts.reports_eq_nil_iff

/-- The books failed before the authors did, which took them along. -/
example : (Library.catalog.plan [("authors", .obj [("books", .str "all"), ("nobody", .bool true)])]).errors =
    ["authors.books: Invalid value for 'books': expected true or an object",
      "authors: Unknown key: nobody"] := by decide +kernel

end Catalog

end NestedQuery
