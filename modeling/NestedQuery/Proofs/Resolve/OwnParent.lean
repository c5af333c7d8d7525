import NestedQuery.Proofs.Plan.Preorder
import NestedQuery.Proofs.Resolve.Tour
import NestedQuery.Proofs.Schema.Accepted
import NestedQuery.Proofs.Text.Dotted
import NestedQuery.Service
/-!
# A task joins to its own parent

The indices and the places of the walk are kept under the dotted text of
a path, and paths with one text need not be one path: a key may contain
the dot. Still a task never reads those of a stranger. What is written
between its parent's turn and its own belongs to descendants of the
parent, and their texts are longer than the parent's
(`Branch.Fits.length_lt`); so what the parent wrote is there
(`Follows.holds`), and with it the column to join on, which the parent
indexes because the task asked for it. Hence no task fails for want of a
join key (`Engine.raised_of_attempt`).
-/

namespace NestedQuery

/-! ## Texts of paths -/

namespace Task

variable {catalog : Catalog} {task parent : Task}

theorem Below.parentText (h : task.Below catalog (some parent)) :
    task.path.parentText = parent.path.text := by
  rw [NodePath.parentText, h.parentKeys]
  rfl

theorem Below.length_lt (h : task.Below catalog (some parent)) (hparent : parent.path.keys ≠ []) :
    parent.path.text.length < task.path.text.length := by
  rw [NodePath.text, NodePath.text, h.full_eq]
  exact Text.length_dotted_append (full_ne_nil hparent) h.keys

end Task

/-- Below a task all texts are longer than its own. -/
theorem Branch.Fits.length_lt {catalog : Catalog} {parent : Task} {branches : List Branch}
    (h : Fits catalog (some parent) branches) (hparent : parent.path.keys ≠ []) {task : Task}
    (hmem : task ∈ tasksOf branches) : parent.path.text.length < task.path.text.length := by
  generalize hp : some parent = p at h
  induction h generalizing parent with
  | nil => simp at hmem
  | node hbelow _ _ _ ihnested ihrest =>
    subst hp
    have hroot := hbelow.length_lt hparent
    rw [tasksOf_node, List.mem_cons, List.mem_append] at hmem
    rcases hmem with rfl | hmem | hmem
    · exact hroot
    · exact Nat.lt_trans hroot (ihnested hbelow.keys hmem rfl)
    · exact ihrest hparent hmem rfl

/-! ## What a host left behind -/

/-- The place and the indices of a host are found under its text. -/
def Progress.Holds (progress : Progress) (host : Host) : Prop :=
  progress.places.get? host.task.path.text = some host.place ∧
    progress.cache.slot? host.task.path.text = some (host.task.indices host.fetched)

namespace Progress

variable {progress : Progress} {task : Task} {place : Nat} {host : Host}

/-- What is noted under another text does not touch a host. -/
theorem Holds.enter (h : progress.Holds host) (hne : task.path.text ≠ host.task.path.text) :
    (progress.enter task place).Holds host := by
  refine ⟨?_, h.2⟩
  show (progress.places.put task.path.text place).get? host.task.path.text = _
  rw [Keyed.get?_put, if_neg hne]
  exact h.1

theorem Holds.keep {fetched : Outcome} (h : progress.Holds host)
    (hne : task.path.text ≠ host.task.path.text) :
    (progress.keep task place fetched).Holds host := by
  refine ⟨h.1, ?_⟩
  show (progress.cache.slots.put task.path.text _).get? host.task.path.text = _
  rw [Keyed.get?_put, if_neg hne]
  exact h.2

/-- A task with an outcome is a host from then on. -/
theorem holds_keep (progress : Progress) (task : Task) (place : Nat) (fetched : Outcome) :
    ((progress.enter task place).keep task place fetched).Holds ⟨task, place, fetched⟩ := by
  constructor
  · show (progress.places.put task.path.text place).get? task.path.text = _
    rw [Keyed.get?_put, if_pos rfl]
  · show (progress.cache.slots.put task.path.text _).get? task.path.text = _
    rw [Keyed.get?_put, if_pos rfl]

end Progress

namespace Engine.Follows

variable {σ : Type} {engine : Engine σ} {operation : Operation} {input : Record}
  {branches : List Branch} {place : Nat} {progress progress' : Progress} {s s' : σ}
  {visits : List Visit} {catalog : Catalog}

/-- The walk through a forest leaves alone what is kept under texts not in it. -/
theorem holds (h : engine.Follows operation input branches place progress s visits progress' s')
    {host : Host} (hne : ∀ task ∈ Branch.tasksOf branches, task.path.text ≠ host.task.path.text)
    (hholds : progress.Holds host) : progress'.Holds host := by
  induction h with
  | nil => exact hholds
  | missed _ _ ih =>
    simp only [Branch.tasksOf_node, List.mem_cons, List.mem_append] at hne
    exact ih (fun t ht => hne t (Or.inr (Or.inr ht))) (hholds.enter (hne _ (Or.inl rfl)))
  | kept _ _ _ ihnested ih =>
    simp only [Branch.tasksOf_node, List.mem_cons, List.mem_append] at hne
    refine ih (fun t ht => hne t (Or.inr (Or.inr ht))) (ihnested (fun t ht => ?_) ?_)
    · exact hne t (Or.inr (Or.inl ht))
    · exact (hholds.enter (hne _ (Or.inl rfl))).keep (hne _ (Or.inl rfl))

/-- Below a host, every visit finds what the host left behind. -/
theorem holds_of_mem
    (h : engine.Follows operation input branches place progress s visits progress' s')
    {host : Host} (hfits : Branch.Fits catalog (some host.task) branches)
    (hkeys : host.task.path.keys ≠ []) (hholds : progress.Holds host) {visit : Visit}
    (hvisit : visit ∈ visits) :
    visit.stop.progress.Holds host ∧ visit.stop.task.Below catalog (some host.task) := by
  induction h with
  | nil => cases hvisit
  | @missed task nested rest _ progress _ _ _ _ fault _ _ _ ih =>
    have hlt : ∀ t ∈ Branch.tasksOf (.node task nested :: rest),
        host.task.path.text.length < t.path.text.length :=
      fun t ht => hfits.length_lt hkeys ht
    cases hfits with
    | node hbelow _ _ hrest =>
      have hne : task.path.text ≠ host.task.path.text := fun heq =>
        absurd (hlt task (by simp)) (by rw [heq]; exact Nat.lt_irrefl _)
      rcases List.mem_cons.1 hvisit with rfl | hvisit
      · exact ⟨hholds.enter hne, hbelow⟩
      · exact ih hrest (hholds.enter hne) hvisit
  | @kept task nested rest place progress _ _ _ _ _ _ fetched _ _ _ hnested _ _ ih =>
    have hlt : ∀ t ∈ Branch.tasksOf (.node task nested :: rest),
        host.task.path.text.length < t.path.text.length :=
      fun t ht => hfits.length_lt hkeys ht
    cases hfits with
    | node hbelow _ _ hrest =>
      have hne : ∀ t ∈ Branch.tasksOf (.node task nested :: rest),
          t.path.text ≠ host.task.path.text := fun t ht heq =>
        absurd (hlt t ht) (by rw [heq]; exact Nat.lt_irrefl _)
      have hroot := hne task (by simp)
      rcases List.mem_cons.1 hvisit with rfl | hvisit
      · exact ⟨hholds.enter hroot, hbelow⟩
      · refine ih hrest (hnested.holds (fun t ht => hne t (by simp [ht])) ?_) hvisit
        exact (hholds.enter hroot).keep hroot

/-- **Every nested visit finds what its own parent left behind.** -/
theorem holds_of_nests
    (h : engine.Follows operation input branches place progress s visits progress' s')
    {parent : Option Task} (hfits : Branch.Fits catalog parent branches) {host : Host}
    {visit : Visit} (hnests : Visit.Nests visits host visit) :
    visit.stop.progress.Holds host ∧ visit.stop.task.Below catalog (some host.task) := by
  induction h generalizing parent with
  | nil => cases hnests
  | missed _ _ ih =>
    cases hfits with
    | node _ _ _ hrest =>
      cases hnests with
      | behind hnests => exact ih hrest hnests
  | kept _ hnested _ ihnested ih =>
    cases hfits with
    | node hbelow _ hfitsNested hrest =>
      cases hnests with
      | here hmem =>
        exact hnested.holds_of_mem hfitsNested hbelow.keys (Progress.holds_keep ..) hmem
      | inside hnests => exact ihnested hfitsNested hnests
      | behind hnests => exact ih hrest hnests

end Engine.Follows

/-! ## The join -/

theorem Keyed.get?_map_pair {α : Type} {columns : List String} {column : String} (f : String → α)
    (h : column ∈ columns) :
    Keyed.get? (columns.map fun c => (c, f c)) column = some (f column) := by
  induction columns with
  | nil => cases h
  | cons first rest ih =>
    rw [List.map_cons, Keyed.get?_cons]
    by_cases heq : first = column
    · rw [if_pos heq, heq]
    · rw [if_neg heq]
      exact ih ((List.mem_cons.1 h).resolve_left fun h' => heq h'.symm)

namespace Task

variable {task : Task} {column : String}

theorem mem_indexedColumns :
    column ∈ task.indexedColumns ↔ column ∈ task.joinColumns ∨ column ∈ task.temporarySources := by
  unfold indexedColumns
  generalize task.joinColumns = columns
  induction task.temporarySources generalizing columns with
  | nil => simp
  | cons source rest ih =>
    rw [List.foldl_cons, ih, List.mem_cons]
    split
    · next hmem =>
      constructor
      · exact Or.imp_right Or.inr
      · rintro (hcolumn | rfl | hrest)
        · exact Or.inl hcolumn
        · exact Or.inl hmem
        · exact Or.inr hrest
    · rw [List.mem_append, List.mem_singleton, or_assoc]

/-- A column to join on is indexed, and so is a temporary field. -/
theorem get?_indices (h : column ∈ task.joinColumns ∨ column ∈ task.temporarySources)
    (outcome : Outcome) :
    (task.indices outcome).get? column = some (.ofOutcome outcome column) :=
  Keyed.get?_map_pair _ (mem_indexedColumns.2 h)

/-- The constraint by which a task joins to a host: any of the keys of the host's records under a
batch, otherwise the key of its one record, and nothing if there is none. -/
def hostConstraint (task : Task) (link : Link) (host : Host) : Constraint :=
  let index := JoinIndex.ofOutcome host.fetched link.referencedKey
  if task.batch.underBatch then .anyOfKeys index.keys
  else (index.single?.bind Constraint.ofKey?).getD (.anyOf [])

end Task

/-- A visit joins to a host: the place it writes to and the index it reads are those of the host,
and so is the constraint that goes into the filter. -/
structure Visit.JoinsTo (visit : Visit) (host : Host) (link : Link) : Prop where
  parent : visit.stop.progress.parent? visit.stop.task = some (link, host.place)
  index : visit.stop.progress.cache.index? visit.stop.task.path.parentText link.referencedKey =
    some (.ofOutcome host.fetched link.referencedKey)
  joined : visit.stop.task.joined visit.stop.progress.cache =
    .ok (visit.stop.task.constrain link.localKey (visit.stop.task.hostConstraint link host))

/-- A visit below a host that finds what the host left behind joins to it. -/
theorem Visit.joinsTo_of_holds {catalog : Catalog} {visit : Visit} {host : Host} {link : Link}
    (hholds : visit.stop.progress.Holds host)
    (hbelow : visit.stop.task.Below catalog (some host.task))
    (hlink : visit.stop.task.link = some link)
    (hcolumn : link.referencedKey ∈ host.task.joinColumns) : visit.JoinsTo host link := by
  have hindex : visit.stop.progress.cache.index? visit.stop.task.path.parentText
      link.referencedKey = some (.ofOutcome host.fetched link.referencedKey) := by
    rw [JoinCache.index?, hbelow.parentText, hholds.2, Option.bind_some,
      Task.get?_indices (Or.inl hcolumn)]
  refine ⟨?_, hindex, ?_⟩
  · rw [Progress.parent?, hlink, hbelow.parentText, hholds.1]
    rfl
  · have hconstraint : visit.stop.task.joinConstraint link visit.stop.progress.cache =
        .ok (visit.stop.task.hostConstraint link host) := by
      rw [Task.joinConstraint, hindex]
      simp only [Task.hostConstraint]
      split <;> rfl
    rw [Task.joined, hlink]
    simp only [hconstraint]
    rfl

/-! ## Who raises a fault -/

/-- A step after another one runs if the first one did not fail. -/
theorem Attempt.run_bind {σ α β : Type} (first : Attempt σ α) (next : α → Attempt σ β) (s : σ) :
    (first >>= next).run.run s =
      match first.run.run s with
      | (.ok a, s₁) => (next a).run.run s₁
      | (.error fault, s₁) => (.error fault, s₁) := by
  rw [ExceptT.run_bind, StateT.run_bind]
  cases first.run.run s with
  | mk result s₁ => cases result <;> rfl

/-- A fault of two steps is one of the first, or one of the second after the first. -/
theorem Attempt.error_of_bind {σ α β : Type} {first : Attempt σ α} {next : α → Attempt σ β}
    {s s' : σ} {fault : Fault} (h : (first >>= next).run.run s = (.error fault, s')) :
    first.run.run s = (.error fault, s') ∨
      ∃ a s₁, first.run.run s = (.ok a, s₁) ∧ (next a).run.run s₁ = (.error fault, s') := by
  rw [run_bind] at h
  cases hfirst : first.run.run s with
  | mk result s₁ =>
    rw [hfirst] at h
    cases result with
    | error raised =>
      obtain ⟨hfault, rfl⟩ := Prod.mk.inj h
      obtain rfl := Except.error.inj hfault
      exact Or.inl rfl
    | ok a => exact Or.inr ⟨a, s₁, rfl, h⟩

namespace Engine

variable {σ : Type}

/-- The parser or the executor of a task returned a fault. -/
inductive Returned (engine : Engine σ) (context : Context) (task : Task) (fault : Fault) :
    Prop where
  | byParser {parser : Parser σ} {s s' : σ} :
      engine.registry.parsers.get? task.parser = some parser →
      (parser context task).run.run s = (.error fault, s') → Returned engine context task fault
  | byExecutor {executor : Executor σ} {joined : Task} {arguments : Json} {s s' : σ} :
      engine.registry.executors.get? task.executor = some executor →
      task.joined context.cache = .ok joined →
      (executor context joined arguments).run.run s = (.error fault, s') →
      Returned engine context task fault

/-- A fault of a task that is not of the engine's own making: its parser or its executor is not
registered, or one of them returned it. -/
inductive Raised (engine : Engine σ) (context : Context) (task : Task) : Fault → Prop where
  | noParser : engine.registry.parsers.get? task.parser = none →
      Raised engine context task (.missingParser task.parser)
  | noExecutor : engine.registry.executors.get? task.executor = none →
      Raised engine context task (.missingExecutor task.executor)
  | returned {fault : Fault} : engine.Returned context task fault →
      Raised engine context task fault

variable {engine : Engine σ} {context : Context} {task joined : Task} {s s' : σ}

/-- Where the join goes well, a fault comes from the parser or the executor. -/
theorem raised_of_fetch (hjoined : task.joined context.cache = .ok joined) {fault : Fault}
    (h : (engine.fetch context task).run.run s = (.error fault, s')) :
    engine.Raised context task fault := by
  unfold fetch at h
  cases hparser : engine.registry.parsers.get? task.parser with
  | none =>
    rw [hparser] at h
    obtain rfl := Except.error.inj (Prod.mk.inj h).1
    exact .noParser hparser
  | some parser =>
    rw [hparser] at h
    rcases Attempt.error_of_bind h with hparse | ⟨arguments?, s₁, -, h⟩
    · exact .returned (.byParser hparser hparse)
    · cases arguments? with
      | none => cases (Prod.mk.inj h).1
      | some arguments =>
        simp only [hjoined] at h
        rcases Attempt.error_of_bind h with hlift | ⟨task', s₂, hlift, h⟩
        · cases (Prod.mk.inj hlift).1
        · obtain rfl : joined = task' := Except.ok.inj (Prod.mk.inj hlift).1
          cases hexecutor : engine.registry.executors.get? task.executor with
          | none =>
            rw [hexecutor] at h
            obtain rfl := Except.error.inj (Prod.mk.inj h).1
            exact .noExecutor hexecutor
          | some executor =>
            rw [hexecutor] at h
            rcases Attempt.error_of_bind h with hexecute | ⟨outcome, s₃, -, h⟩
            · exact .returned (.byExecutor hexecutor hjoined hexecute)
            · cases (Prod.mk.inj h).1

/-- So does a fault that the walk reports. -/
theorem raised_of_attempt (hjoined : task.joined context.cache = .ok joined) {fault : Fault}
    (h : (engine.attempt context task).run s = (.error (some fault), s')) :
    engine.Raised context task fault := by
  unfold attempt at h
  split at h
  · cases (Prod.mk.inj h).1
  · rw [StateT.run_bind] at h
    cases hfetch : (engine.fetch context task).run.run s with
    | mk result s₁ =>
      rw [hfetch] at h
      cases result with
      | error raised =>
        have h : ((Except.error (some raised), s₁) : Except (Option Fault) Outcome × σ) =
          (.error (some fault), s') := h
        obtain ⟨hfault, rfl⟩ := Prod.mk.inj h
        obtain rfl := Option.some.inj (Except.error.inj hfault)
        exact raised_of_fetch hjoined hfetch
      | ok outcome? =>
        cases outcome? with
        | none => cases Except.error.inj (Prod.mk.inj h).1
        | some outcome =>
          obtain ⟨h, -⟩ := Prod.mk.inj h
          split at h
          · cases Except.error.inj h
          · cases h

end Engine

/-- Whether a fault is the want of a join key. -/
def Fault.isJoin : Fault → Bool
  | .missingJoinKey _ _ => true
  | _ => false

/-- Neither a parser nor an executor of the registry speaks of the want of a join key. -/
structure Registry.Joinless {σ : Type} (registry : Registry σ) : Prop where
  parsers : ∀ {id : String} {parser : Parser σ}, registry.parsers.get? id = some parser →
    ∀ {context : Context} {task : Task} {s s' : σ} {fault : Fault},
      (parser context task).run.run s = (.error fault, s') → fault.isJoin = false
  executors : ∀ {id : String} {executor : Executor σ}, registry.executors.get? id = some executor →
    ∀ {context : Context} {task : Task} {arguments : Json} {s s' : σ} {fault : Fault},
      (executor context task arguments).run.run s = (.error fault, s') → fault.isJoin = false

namespace Engine

variable {σ : Type} {engine : Engine σ} {context : Context} {task : Task} {fault : Fault}

theorem Returned.isJoin (h : engine.Returned context task fault)
    (hjoinless : engine.registry.Joinless) : fault.isJoin = false := by
  cases h with
  | byParser hparser hrun => exact hjoinless.parsers hparser hrun
  | byExecutor hexecutor _ hrun => exact hjoinless.executors hexecutor hrun

/-- The want of a join key is no fault but a returned one. -/
theorem Raised.returned_of_isJoin (h : engine.Raised context task fault)
    (hjoin : fault.isJoin = true) : engine.Returned context task fault := by
  cases h with
  | noParser => cases hjoin
  | noExecutor => cases hjoin
  | returned hreturned => exact hreturned

end Engine

namespace Catalog

variable {catalog : Catalog}

theorem isJoin_of_resolveNode {key : String} {value : Json} {fault : Fault}
    (h : catalog.resolveNode key value = .error fault) : fault.isJoin = false := by
  unfold resolveNode at h
  split at h
  · split at h
    · cases h
    · obtain rfl := Except.error.inj h
      rfl
  · split at h
    · cases h
    · obtain rfl := Except.error.inj h
      rfl
  · obtain rfl := Except.error.inj h
    rfl

theorem isJoin_of_resolveNested {parent : Model} {key : String} {value : Json} {fault : Fault}
    (h : catalog.resolveNested parent key value = .error fault) : fault.isJoin = false := by
  unfold resolveNested at h
  split at h
  · obtain rfl := Except.error.inj h
    rfl
  · split at h
    · cases h
    · obtain rfl := Except.error.inj h
      rfl

theorem isJoin_of_applyRules {model : Model} {start task : Task} {fields : Record} {fault : Fault}
    (h : catalog.applyRules model start fields = (task, some fault)) : fault.isJoin = false := by
  fun_induction applyRules catalog model start fields with
  | case1 => cases (Prod.mk.inj h).2
  | case2 =>
    obtain rfl := Option.some.inj (Prod.mk.inj h).2
    rfl
  | case3 _ _ _ _ _ _ ih => exact ih h
  | case4 =>
    obtain rfl := Option.some.inj (Prod.mk.inj h).2
    rfl
  | case5 _ _ _ _ _ _ _ _ _ ih => exact ih h

/-- No report of a plan is the want of a join key. -/
theorem Compiles.reports {parent : Option (Model × Task)} {nodes : Record}
    {branches : List Branch} {reports : List String}
    (h : catalog.Compiles parent nodes branches reports) :
    ∀ report ∈ reports, ∃ path fault, report = path ++ ": " ++ Fault.message fault ∧
      fault.isJoin = false := by
  induction h with
  | nil => simp
  | unresolved hres _ ih =>
    intro report hreport
    rcases List.mem_cons.1 hreport with rfl | hreport
    · exact ⟨_, _, rfl, isJoin_of_resolveNode hres⟩
    · exact ih report hreport
  | refused _ _ _ ih =>
    intro report hreport
    rcases List.mem_cons.1 hreport with rfl | hreport
    · exact ⟨_, _, rfl, rfl⟩
    · exact ih report hreport
  | misruled _ _ hrules _ ih =>
    intro report hreport
    rcases List.mem_cons.1 hreport with rfl | hreport
    · exact ⟨_, _, rfl, isJoin_of_applyRules hrules⟩
    · exact ih report hreport
  | broken _ _ _ _ _ hfault _ ihlost ih =>
    intro report hreport
    rcases List.mem_append.1 hreport with hreport | hreport
    · exact ihlost report hreport
    · rcases List.mem_cons.1 hreport with rfl | hreport
      · exact ⟨_, _, rfl, isJoin_of_resolveNested hfault⟩
      · exact ih report hreport
  | grown _ _ _ _ _ ihnested ih =>
    intro report hreport
    rcases List.mem_append.1 hreport with hreport | hreport
    · exact ihnested report hreport
    · exact ih report hreport

end Catalog

/-! ## The engine of a store -/

theorem Outcome.isJoin_of_readRecords {items : List Json} {fault : Fault}
    (h : readRecords items = .error fault) : fault.isJoin = false := by
  induction items with
  | nil => cases h
  | cons item rest ih =>
    cases item with
    | obj fields =>
      cases hrest : readRecords rest with
      | error raised =>
        rw [readRecords, hrest] at h
        exact ih (hrest.trans h)
      | ok records =>
        rw [readRecords, hrest] at h
        cases h
    | _ =>
      obtain rfl := Except.error.inj h
      rfl

theorem Outcome.isJoin_of_ofJson {value : Json} {fault : Fault} (h : ofJson value = .error fault) :
    fault.isJoin = false := by
  cases value with
  | null | obj _ => cases h
  | arr items =>
    cases hitems : readRecords items with
    | error raised =>
      rw [ofJson, hitems] at h
      obtain rfl := Except.error.inj h
      exact isJoin_of_readRecords hitems
    | ok records =>
      rw [ofJson, hitems] at h
      cases h
  | num n =>
    cases hsize : n.toNat? with
    | some size =>
      simp only [ofJson, hsize] at h
      cases h
    | none =>
      simp only [ofJson, hsize] at h
      obtain rfl := Except.error.inj h
      rfl
  | bool _ | str _ =>
    obtain rfl := Except.error.inj h
    rfl

namespace Engine

theorem get?_parsers_ofCatalog (catalog : Catalog) (id : String) :
    (ofCatalog catalog).registry.parsers.get? id =
      if "default" = id then some Registry.defaultParser else none :=
  rfl

theorem get?_executors_ofCatalog (catalog : Catalog) (id : String) :
    (ofCatalog catalog).registry.executors.get? id =
      if "memory" = id then some Store.executor
      else if "default" = id then some Registry.defaultExecutor else none := by
  show Keyed.get? (Keyed.put [("default", Registry.defaultExecutor)] "memory" Store.executor) id = _
  rw [Keyed.get?_put]
  rfl

/-- The engine of a store has a registry that speaks of no join key. -/
theorem joinless_ofCatalog (catalog : Catalog) : (ofCatalog catalog).registry.Joinless := by
  constructor
  · intro id parser hparser context task s s' fault hfault
    rw [get?_parsers_ofCatalog] at hparser
    split at hparser
    · obtain rfl := Option.some.inj hparser
      cases (Prod.mk.inj hfault).1
    · cases hparser
  · intro id executor hexecutor context task arguments s s' fault hfault
    rw [get?_executors_ofCatalog] at hexecutor
    split at hexecutor
    · obtain rfl := Option.some.inj hexecutor
      unfold Store.executor Store.execute at hfault
      split at hfault
      case h_5 =>
        obtain rfl := Except.error.inj (Prod.mk.inj hfault).1
        rfl
      all_goals cases (Prod.mk.inj hfault).1
    · split at hexecutor
      · obtain rfl := Option.some.inj hexecutor
        exact Outcome.isJoin_of_ofJson (Prod.mk.inj hfault).1
      · cases hexecutor

end Engine

/-! ## Every task joins to its own parent -/

/-- A nested task is linked to its parent: the link joins a column of its own model to a column of
its parent's, and both tasks index theirs. -/
structure Task.LinkedTo (catalog : Catalog) (child parent : Task) (link : Link) : Prop where
  carried : child.link = some link
  ownColumn : link.localKey ∈ (catalog.columns child.model).map Column.key
  ownIndexed : link.localKey ∈ child.joinColumns
  parentColumn : link.referencedKey ∈ (catalog.columns parent.model).map Column.key
  parentIndexed : link.referencedKey ∈ parent.joinColumns

theorem Catalog.Accepted.mem_columns {catalog : Catalog} (h : catalog.Accepted) {model : Model}
    (hmem : model ∈ catalog.models) {key : String} (hkey : model.hasColumn key = true) :
    key ∈ (catalog.columns model.name).map Column.key := by
  rw [Catalog.columns, h.model?_name hmem]
  obtain ⟨column, hcolumn⟩ := Option.isSome_iff_exists.1 hkey
  refine List.mem_map.2 ⟨column, List.mem_of_find?_eq_some hcolumn, ?_⟩
  simpa using List.find?_some hcolumn

/-- In an accepted catalog a task that joins a parent is linked to it. -/
theorem Task.Joins.linkedTo {catalog : Catalog} (haccepted : catalog.Accepted)
    {child parent : Task} {link : Link} (h : child.Joins catalog parent link) :
    child.LinkedTo catalog parent link := by
  obtain ⟨hlink, hown, hparent, own, howned, home, hhome, hownName, hhomeName, hjoin⟩ := h
  obtain ⟨hownColumn, hparentColumn⟩ := haccepted.link_columns howned hhome hjoin
  exact ⟨hlink, hownName ▸ haccepted.mem_columns howned hownColumn, hown,
    hhomeName ▸ haccepted.mem_columns hhome hparentColumn, hparent⟩

/-- What is nested stands below what it is nested in. -/
theorem Branch.Fits.below_of_nests {catalog : Catalog} {parent : Option Task}
    {branches : List Branch} (hfits : Fits catalog parent branches) {task child : Task}
    (hnests : Nests branches task child) : child.Below catalog (some task) := by
  induction hfits with
  | nil => cases hnests
  | node _ _ hnested _ ihnested ihrest =>
    cases hnests with
    | here hmem => exact root_below hnested hmem
    | inside hnests => exact ihnested hnests
    | behind hnests => exact ihrest hnests

namespace Engine

variable {σ : Type}

/-- The join of a visit goes well, whether the task is nested or not. -/
theorem exists_joined {engine : Engine σ} {operation : Operation} {request : Record} {s s' : σ}
    {final : Progress} {visits : List Visit}
    (h : engine.Follows operation request (engine.catalog.forest request) 0
      (.start (engine.catalog.plan request)) s visits final s')
    {visit : Visit} (hoccurs : Visit.Occurs visits visit) :
    ∃ joined, visit.stop.task.joined visit.stop.progress.cache = .ok joined := by
  have hfits := engine.catalog.fits_forest request
  rcases hoccurs with hmem | ⟨host, hnests⟩
  · obtain ⟨branch, hbranch, hroot⟩ := h.root_of_mem hmem
    have hlink : visit.stop.task.link = none := hroot ▸ (Branch.root_below hfits hbranch).link
    exact ⟨visit.stop.task, by rw [Task.joined, hlink]⟩
  · obtain ⟨hholds, hbelow⟩ := h.holds_of_nests hfits hnests
    obtain ⟨link, hlink, -, hcolumn, -⟩ := hbelow.link
    exact ⟨_, (Visit.joinsTo_of_holds hholds hbelow hlink hcolumn).joined⟩

/-- Visits are made to tasks of the plan. -/
theorem mem_plan_of_occurs {engine : Engine σ} {operation : Operation} {request : Record} {s s' : σ}
    {final : Progress} {visits : List Visit}
    (h : engine.Follows operation request (engine.catalog.forest request) 0
      (.start (engine.catalog.plan request)) s visits final s')
    {visit : Visit} (hoccurs : Visit.Occurs visits visit) :
    visit.stop.task ∈ (engine.catalog.plan request).tasks := by
  rw [Catalog.plan_tasks]
  rcases hoccurs with hmem | ⟨host, hnests⟩
  · obtain ⟨branch, hbranch, hroot⟩ := h.root_of_mem hmem
    exact hroot ▸ Branch.root_mem_tasksOf hbranch
  · exact (h.nests hnests).mem_tasksOf

/-- What the walk of a request does, and that every task in it joins to its own parent. -/
structure JoinsOwnParent (engine : Engine σ) (operation : Operation) (request : Record) (s : σ) :
    Prop where
  /-- The nested tasks of the plan have a parent. -/
  parented : ∀ child ∈ (engine.catalog.plan request).tasks, child.isNested = true →
    ∃ parent, Branch.Nests (engine.catalog.forest request) parent child
  /-- And they are linked to it. -/
  linked : ∀ parent child, Branch.Nests (engine.catalog.forest request) parent child →
    ∃ link, child.LinkedTo engine.catalog parent link
  /-- Whenever one is worked on, the place it writes to and the index it reads are those of its
  parent. -/
  visited : ∃ visits final s',
    engine.Follows operation request (engine.catalog.forest request) 0
      (.start (engine.catalog.plan request)) s visits final s' ∧
    (engine.run operation request).run s =
      ({ data := collect (engine.catalog.plan request).tasks final.settled,
         errors := final.errors }, s') ∧
    (∀ host visit, Visit.Nests visits host visit →
      Branch.Nests (engine.catalog.forest request) host.task visit.stop.task ∧
      (engine.catalog.plan request).tasks[host.place]? = some host.task ∧
      ∃ link, visit.stop.task.LinkedTo engine.catalog host.task link ∧ visit.JoinsTo host link) ∧
    final.errors = (engine.catalog.plan request).errors ++
      (Visit.faultsOf visits).map (fun x => x.1.report x.2) ∧
    ∀ x ∈ Visit.faultsOf visits,
      engine.Raised ⟨operation, engine.catalog, request, x.1.progress.cache⟩ x.1.task x.2
  /-- So it is never the engine that misses a join key: a report of that is what the parser or the
  executor of a task returned, and there is none if the registry speaks of no join key. -/
  unmissed : ∀ report ∈ ((engine.run operation request).run s).1.errors, ∃ path fault,
    report = path ++ ": " ++ Fault.message fault ∧
    (fault.isJoin = true → ∃ task ∈ (engine.catalog.plan request).tasks, path = task.path.text ∧
      ∃ context, engine.Returned context task fault) ∧
    (engine.registry.Joinless → fault.isJoin = false)

/-- **Every task joins to its own parent**, however the texts of the paths look. -/
theorem joins_own_parent (engine : Engine σ) (haccepted : engine.catalog.Accepted)
    (operation : Operation) (request : Record) (s : σ) :
    engine.JoinsOwnParent operation request s := by
  have hfits := engine.catalog.fits_forest request
  obtain ⟨visits, final, s', hfollows, hrun⟩ := run_settled engine operation request s
  have hraised : ∀ x ∈ Visit.faultsOf visits,
      engine.Raised ⟨operation, engine.catalog, request, x.1.progress.cache⟩ x.1.task x.2 := by
    rintro ⟨stop, fault⟩ hx
    have hoccurs := occurs_of_mem_faultsOf hx
    obtain ⟨joined, hjoined⟩ := exists_joined hfollows hoccurs
    obtain ⟨s₁, s₂, hattempt⟩ := hfollows.attempt_of_missed hoccurs
    exact raised_of_attempt hjoined hattempt
  refine ⟨fun child hchild hnested => ?_, fun parent child hnests => ?_,
    ⟨visits, final, s', hfollows, hrun, fun host visit hnests => ⟨hfollows.nests hnests, ?_, ?_⟩,
      hfollows.errors, hraised⟩, fun report hreport => ?_⟩
  · rw [Catalog.plan_tasks] at hchild
    rcases Branch.exists_nests hfits hchild with ⟨branch, hbranch, rfl⟩ | hparent
    · rw [(Branch.root_below hfits hbranch).isNested] at hnested
      cases hnested
    · exact hparent
  · obtain ⟨link, hjoins⟩ := (hfits.below_of_nests hnests).link
    exact ⟨link, hjoins.linkedTo haccepted⟩
  · obtain ⟨i, hplace, htask⟩ := hfollows.place_of_nests hnests
    rw [Catalog.plan_tasks, hplace, Nat.zero_add, htask]
  · obtain ⟨hholds, hbelow⟩ := hfollows.holds_of_nests hfits hnests
    obtain ⟨link, hjoins⟩ := hbelow.link
    exact ⟨link, hjoins.linkedTo haccepted,
      Visit.joinsTo_of_holds hholds hbelow hjoins.1 hjoins.2.2.1⟩
  · have hreport : report ∈ final.errors := by
      rw [hrun] at hreport
      exact hreport
    rw [hfollows.errors, List.mem_append] at hreport
    rcases hreport with hreport | hreport
    · -- compiling knows of no index
      obtain ⟨path, fault, heq, hjoin⟩ :=
        (engine.catalog.compiles_forest request).reports report hreport
      exact ⟨path, fault, heq, fun htrue => by simp [hjoin] at htrue, fun _ => hjoin⟩
    · obtain ⟨⟨stop, fault⟩, hx, rfl⟩ := List.mem_map.1 hreport
      have hreturned := (hraised _ hx).returned_of_isJoin
      refine ⟨_, fault, rfl, fun hjoin => ?_, fun hjoinless => ?_⟩
      · exact ⟨stop.task, mem_plan_of_occurs hfollows (occurs_of_mem_faultsOf hx), rfl, _,
          hreturned hjoin⟩
      · exact Bool.eq_false_iff.2 fun hjoin =>
          Bool.eq_false_iff.1 ((hreturned hjoin).isJoin hjoinless) hjoin

theorem joins_own_parent_library : Library.catalog.Accepted ∧
    (Engine.ofCatalog Library.catalog).registry.Joinless ∧
    (Engine.ofCatalog Library.catalog).JoinsOwnParent .query Library.request (.ofCatalog Library.catalog) :=
  ⟨Library.accepted, joinless_ofCatalog _,
    joins_own_parent (Engine.ofCatalog Library.catalog) Library.accepted .query Library.request _⟩

end Engine

namespace Library

/-- The library, served by an executor that speaks of a join key where none is looked up. -/
def pretending : Engine Unit :=
  ⟨catalog, Registry.withDefaults.addExecutor "memory" fun _ _ _ =>
    throw (.missingJoinKey "authors" "id")⟩

end Library

namespace Engine

/-- The report alone does not say who misses the join key: an executor may return that fault too. -/
theorem not_unmissed_pretending : ¬ ∀ (engine : Engine Unit) (operation : Operation)
    (request : Record), engine.catalog.Accepted → (Json.obj request).Distinct →
    ∀ report ∈ ((engine.run operation request).run ()).1.errors, ∀ path parent column,
      report ≠ path ++ ": " ++ (Fault.missingJoinKey parent column).message := by
  intro h
  have hreport : "authors: Join key 'id' not cached at 'authors'" ∈
      ((Library.pretending.run .query [("authors", .bool true)]).run ()).1.errors := by
    decide +kernel
  have hdistinct : (Json.obj [("authors", .bool true)]).Distinct := by
    simp [Json.Distinct, Json.DistinctFields, Keyed.keys]
  exact h Library.pretending .query _ Library.accepted hdistinct _ hreport "authors" "authors" "id" rfl

end Engine

end NestedQuery
