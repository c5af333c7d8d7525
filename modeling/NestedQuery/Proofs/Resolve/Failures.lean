import NestedQuery.Proofs.Plan.Failing
import NestedQuery.Proofs.Resolve.Answers
import NestedQuery.Proofs.Resolve.Siblings
/-!
# Where the null of a failed node stands

A task that failed is never fetched. All that a run takes from it is the
place where its null goes, so two tasks that failed in one place cannot
be told apart (`Engine.run_indistinct`). And if they failed in two places
of one node, these have the key of the node in common, and what is
answered is the same where this key is forgotten
(`Branch.Swapped.answersBut`).

The order of the keys in a node that fails decides nothing else, and of
the place it decides only whether the page key is a part of it
(`Engine.failure_placed`).
-/

namespace NestedQuery

open scoped List

variable {σ : Type}

/-! ## Tasks that a walk cannot tell apart -/

/-- The same task, or two that failed in one place. -/
inductive Task.Indistinct : Task → Task → Prop where
  | same {task : Task} : Indistinct task task
  | failed {name : String} {task task' : Task} :
      task.FailedAlike name task' → task'.path = task.path → Indistinct task task'

namespace Task.Indistinct

variable {task task' : Task}

theorem collected_eq (h : task.Indistinct task') :
    task'.isNested = task.isNested ∧ task'.path = task.path := by
  cases h with
  | same => exact ⟨rfl, rfl⟩
  | failed halike hpath => exact ⟨halike.isNested, hpath⟩

end Task.Indistinct

/-- Two walks have come equally far; they may have reported other things. -/
structure Progress.Agree (progress progress' : Progress) : Prop where
  cache : progress'.cache = progress.cache
  places : progress'.places = progress.places
  slots : progress'.slots = progress.slots
  writes : progress'.writes = progress.writes

namespace Progress.Agree

variable {progress progress' : Progress} {task task' : Task}

theorem settled_eq (h : progress.Agree progress') : progress'.settled = progress.settled := by
  rw [settled, settled, h.writes, h.slots]

theorem enter (h : progress.Agree progress') (hpath : task'.path = task.path) (place : Nat) :
    (progress.enter task place).Agree (progress'.enter task' place) where
  cache := h.cache
  places := by
    show progress'.places.put task'.path.text place = progress.places.put task.path.text place
    rw [h.places, hpath]
  slots := h.slots
  writes := h.writes

theorem parent?_eq (h : progress.Agree progress') (hlink : task'.link = task.link)
    (hpath : task'.path = task.path) : progress'.parent? task' = progress.parent? task := by
  rw [parent?, parent?, h.places, hlink, hpath]

theorem miss (h : progress.Agree progress') (hlink : task'.link = task.link)
    (hpath : task'.path = task.path) (hbatch : task'.batch = task.batch) (fault : Option Fault) :
    (progress.miss task fault).Agree (progress'.miss task' fault) where
  cache := h.cache
  places := h.places
  slots := h.slots
  writes := by
    simp only [Progress.miss, h.parent?_eq hlink hpath, h.cache, h.writes, Task.emptyWrites,
      Task.targets, hpath, hbatch]

theorem keep (h : progress.Agree progress') (place : Nat) (fetched : Outcome) :
    (progress.keep task place fetched).Agree (progress'.keep task place fetched) where
  cache := by simp only [Progress.keep, h.cache]
  places := h.places
  slots := by simp only [Progress.keep, h.slots]
  writes := by simp only [Progress.keep, h.parent?_eq rfl rfl, h.cache, h.writes]

end Progress.Agree

namespace Engine

variable {engine : Engine σ} {operation : Operation} {request request' : Record}

/-- A task that failed has no outcome, and its failure is no fault of the run. -/
theorem attempt_of_failed {context : Context} {task : Task} (hfailed : task.isFailed = true) (s : σ) :
    (engine.attempt context task).run s = (.error none, s) := by
  rw [attempt, hfailed]
  rfl

/-- **Two walks of tasks that cannot be told apart come equally far**, where all who are called are
steady. -/
theorem walk_indistinct (hsteady : engine.registry.Steady operation) (input input' : Record)
    {tasks tasks' : List Task}
    (htasks : List.Forall₂ Task.Indistinct tasks tasks') {progress progress' : Progress}
    (hagree : progress.Agree progress') (place : Nat) (s : σ) :
    ((engine.walk operation input place tasks progress).run s).1.Agree
      ((engine.walk operation input' place tasks' progress').run s).1 := by
  -- by the number of tasks left, as those nested in a task without outcome are passed over
  induction hlength : tasks.length using Nat.strongRecOn generalizing tasks tasks' progress progress'
    place s with
  | ind n ih =>
    cases htasks with
    | nil =>
      rw [walk, walk]
      exact hagree
    | @cons task task' rest rest' hhead hrest =>
      rw [List.length_cons] at hlength
      cases hhead with
      | @failed name _ _ halike hpath =>
        have hentered := hagree.enter hpath place
        rw [walk_run_error (attempt_of_failed halike.failed s),
          walk_run_error (attempt_of_failed halike.failed' s), halike.childCount]
        exact ih _ (by rw [List.length_drop]; omega) (List.forall₂_drop _ hrest)
          (hentered.miss halike.link hpath halike.batch none) _ s rfl
      | same =>
        have hentered := hagree.enter (rfl : task.path = task.path) place
        cases hattempt : (engine.attempt ⟨operation, engine.catalog, input,
            (progress.enter task place).cache⟩ task).run s with
        | mk result s₁ =>
          cases hattempt' : (engine.attempt ⟨operation, engine.catalog, input',
              (progress'.enter task place).cache⟩ task).run s with
          | mk result' s₂ =>
            have halike : result = result' ∧ s₁ = s ∧ s₂ = s := by
              refine attempt_steady hsteady ?_ ?_ ?_ ?_ hattempt hattempt'
              · rfl
              · rfl
              · rfl
              · exact congrArg task.joined hentered.cache.symm
            obtain ⟨rfl, rfl, rfl⟩ := halike
            cases result with
            | error fault =>
              rw [walk_run_error hattempt, walk_run_error hattempt']
              exact ih _ (by rw [List.length_drop]; omega) (List.forall₂_drop _ hrest)
                (hentered.miss rfl rfl rfl fault) _ _ rfl
            | ok fetched =>
              rw [walk_run_ok hattempt, walk_run_ok hattempt']
              exact ih _ (by omega) hrest (hentered.keep place fetched) _ _ rfl

theorem collect_indistinct {tasks tasks' : List Task}
    (htasks : List.Forall₂ Task.Indistinct tasks tasks') (slots : Slots) :
    collect tasks' slots = collect tasks slots := by
  unfold collect
  generalize Json.obj [] = data
  induction htasks generalizing slots data with
  | nil => rfl
  | @cons task task' rest rest' hhead _ ih =>
    cases slots with
    | nil => rfl
    | cons outcome others =>
      obtain ⟨hnested, hpath⟩ := hhead.collected_eq
      simp only [List.zip_cons_cons, List.foldl_cons, hnested, hpath]
      exact ih others _

/-- **Requests with tasks that cannot be told apart have one answer.** -/
theorem run_indistinct (hsteady : engine.registry.Steady operation)
    (htasks : List.Forall₂ Task.Indistinct (engine.catalog.plan request).tasks
      (engine.catalog.plan request').tasks) (s : σ) :
    ((engine.run operation request').run s).1.data =
      ((engine.run operation request).run s).1.data := by
  have hstart : (Progress.start (engine.catalog.plan request)).Agree
      (.start (engine.catalog.plan request')) :=
    ⟨rfl, rfl, by simp only [Progress.start, htasks.length_eq], rfl⟩
  have hfinal := walk_indistinct hsteady request request' htasks hstart 0 s
  rw [run, run, resolve, resolve, StateT.run_bind, StateT.run_bind]
  show collect _ _ = collect _ _
  rw [collect_indistinct htasks, hfinal.settled_eq]

end Engine

/-! ## Forests that differ in a failed task -/

namespace Branch.Swapped

variable {name : String} {task task' : Task} {paths : List (List String)}
  {branches branches' : List Branch}

/-- In one place the two tasks cannot be told apart. -/
theorem indistinct (h : Swapped task task' paths branches branches')
    (halike : task.FailedAlike name task') (hpath : task'.path = task.path) :
    List.Forall₂ Task.Indistinct (tasksOf branches) (tasksOf branches') := by
  have hrefl : ∀ tasks : List Task, List.Forall₂ Task.Indistinct tasks tasks := fun tasks =>
    List.forall₂_same.2 fun _ _ => .same
  induction h with
  | lost => exact hrefl _
  | among before after _ ih =>
    simp only [tasksOf_append]
    exact List.rel_append (hrefl _) (List.rel_append ih (hrefl _))
  | inside _ _ ih =>
    rw [grow, grow, tasksOf_node, tasksOf_node, ih.length_eq, tasksOf_nil, List.append_nil,
      List.append_nil]
    exact .cons .same ih
  | here =>
    rw [tasksOf_node, tasksOf_node, tasksOf_nil]
    exact .cons (.failed halike hpath) .nil

/-- The forests differ under the key that is forgotten, if at all. -/
theorem eq_or_exists_segment (h : Swapped task task' paths branches branches')
    (halike : task.FailedAlike name task') :
    branches = branches' ∨
      ∃ branch ∈ branches, branch.segment? = Record.forgotten? name paths := by
  induction h with
  | lost => exact .inl rfl
  | among before after _ ih =>
    rcases ih with rfl | ⟨branch, hmem, hsegment⟩
    · exact .inl rfl
    · exact .inr ⟨branch, List.mem_append_right _ (List.mem_append_left _ hmem), hsegment⟩
  | inside hpath _ _ => exact .inr ⟨_, List.mem_singleton_self _, congrArg List.head? hpath⟩
  | here => exact .inr ⟨_, List.mem_singleton_self _, halike.segment⟩

/-- **What a store answers to the two** is the same where the key of the node is forgotten. -/
theorem answersBut {catalog : Catalog} (hmemory : catalog.InMemory)
    (h : Swapped task task' paths branches branches') (halike : task.FailedAlike name task')
    (store : Store) : store.AnswersBut catalog name paths branches branches' := by
  induction h with
  | lost => exact store.answersBut_self catalog name _ _
  | among before after hswapped ih =>
    rcases hswapped.eq_or_exists_segment halike with rfl | hsegment
    · exact store.answersBut_self catalog name _ _
    · exact ih.among hmemory hsegment before after
  | @inside _ _ nested nested' host hpath _ ih =>
    exact ih.node hmemory (kin_grow host nested nested') hpath
  | here =>
    refine Store.answersBut_under ?_ ?_
    · rintro branch hmem
      obtain rfl := List.mem_singleton.1 hmem
      exact halike.segment
    · rintro branch hmem
      obtain rfl := List.mem_singleton.1 hmem
      exact halike.segment'

end Branch.Swapped

/-! ## Requests -/

/-- The task of a node at the top that fails is in the plan. -/
theorem Catalog.Fails.mem_plan {catalog : Catalog} {name : String} {fields request : Record}
    {task : Task} {report : String} (h : catalog.Fails none name fields task report)
    (hnode : (name, .obj fields) ∈ request) : task ∈ (catalog.plan request).tasks := by
  obtain ⟨hforest, -⟩ := h.compiles.unique (catalog.compiles_forest [(name, .obj fields)])
  have hbranch : (catalog.compileTop name (.obj fields)).1 = .node task [] :=
    List.singleton_inj.1 hforest
  have hmem : Branch.node task [] ∈ catalog.forest request :=
    hbranch ▸ List.mem_map_of_mem hnode
  rw [plan_tasks]
  exact Branch.root_mem_tasksOf hmem

/-- At the path of a task at the top that failed stands null. -/
theorem Engine.at?_of_failed (engine : Engine σ) (operation : Operation) {request : Record}
    (hrequest : (Json.obj request).Distinct) {task : Task}
    (hmem : task ∈ (engine.catalog.plan request).tasks) (htop : task.isNested = false)
    (hfailed : task.isFailed = true) (s : σ) :
    ((engine.run operation request).run s).1.data.at? task.path.keys = some .null := by
  obtain ⟨visits, turns, htour⟩ := engine.exists_tour operation request s
  obtain ⟨final, s', hfollows⟩ := htour.follows
  obtain ⟨i, htask⟩ := List.getElem?_of_mem hmem
  obtain ⟨x, hx, rfl, -, hat⟩ := htour.exists_value hrequest htask htop
  obtain ⟨s₁, s₂, htakes⟩ := htour.takes x hx
  obtain ⟨hresult, -⟩ :=
    Prod.mk.inj (htakes.attempt_run.symm.trans (Engine.attempt_of_failed hfailed s₁))
  rw [hfollows.run_eq.1]
  exact hat.trans (congrArg some (htakes.final_eq_null.2 ⟨none, hresult⟩))

/-- What is answered to a request with a failed node, beside what is answered with the keys of the node
in another order. -/
structure Resolution.Moved (first second : Resolution) (spot : Catalog.Spot) (task task' : Task)
    (report report' : String) : Prop where
  /-- It is the same where the key of the node is forgotten in the records of the node around it. -/
  data : first.data.forget spot.name spot.paths = second.data.forget spot.name spot.paths
  /-- It is the same outright if the null goes under the same keys. -/
  same : task.path.keys = task'.path.keys → first.data = second.data
  /-- At the top the null stands there. -/
  top : spot.home = none → first.data.at? task.path.keys = some .null ∧
    second.data.at? task'.path.keys = some .null
  /-- All reports are the same but the node's own. -/
  errors : ∃ before after, first.errors = before ++ report :: after ∧
    second.errors = before ++ report' :: after

namespace Engine

variable {catalog : Catalog}

section

variable (haccepted : catalog.Accepted) (hmemory : catalog.InMemory) {request : Record}
  (hrequest : (Json.obj request).Distinct) {name : String} {fields : Record}
  (hnode : (name, .obj fields) ∈ request) {below : List String} {spot : Catalog.Spot}
  (hcomes : catalog.Comes none name fields below spot) {fields' : Record}
  (hperm : spot.fields ~ fields') (store : Store)

include haccepted hmemory hrequest hnode hcomes hperm

/-- A node fails in any order of its keys, and what is answered beside its null is the same. -/
theorem moved_of_fails {task : Task} {report : String}
    (hfails : catalog.Fails spot.home spot.name spot.fields task report) :
    ∃ task' report', catalog.Fails spot.home spot.name fields' task' report' ∧
      task.path.keys = catalog.nullKeys spot.home spot.name spot.fields ∧
      task'.path.keys = catalog.nullKeys spot.home spot.name fields' ∧
      (((ofCatalog catalog).run .query request).run store).1.Moved
        (((ofCatalog catalog).run .query (request.refill (name :: below) fields')).run store).1 spot
        task task' report report' := by
  have hfields : (Json.obj fields).Distinct := ((Json.distinct_obj_iff _).1 hrequest).2 _ hnode
  have hspot := hcomes.distinct hfields
  obtain ⟨task', report', hfails', halike⟩ := hfails.perm hperm hspot
  refine ⟨task', report', hfails', hfails.keys_eq hspot,
    hfails'.keys_eq (hspot.perm hperm), ?_⟩
  -- the plans of the two requests
  obtain ⟨hswapped, herrors⟩ :=
    hcomes.forest_swapped hrequest hnode hfails hfails' halike.link
  have hdistinct := Record.refill_distinct (hspot.perm hperm) (name :: below) hrequest
  -- the walks through them
  obtain ⟨visits, hvisited, hrun⟩ := exists_visited haccepted hmemory hrequest store
  obtain ⟨visits', hvisited', hrun'⟩ := exists_visited haccepted hmemory hdistinct store
  have hsame := (hswapped.answersBut hmemory halike store).sameBut hvisited hvisited' Host.agree_none
  refine ⟨?_, ?_, ?_, ?_⟩
  · rw [hrun, hrun']
    exact hsame.collected []
  · intro hkeys
    have hindistinct := hswapped.indistinct halike (halike.path_eq hkeys.symm)
    rw [← Catalog.plan_tasks, ← Catalog.plan_tasks] at hindistinct
    exact (run_indistinct (steady_ofCatalog catalog (List.mem_cons_self ..)) hindistinct store).symm
  · intro htop
    obtain ⟨rfl, rfl⟩ := hcomes.of_top htop
    have hnested : task.isNested = false := hfails.isNested_eq
    have hnode' : (name, .obj fields') ∈ request.refill [name] fields' := by
      obtain ⟨before, after, rfl⟩ := List.append_of_mem hnode
      rw [Record.refill_at hrequest]
      exact List.mem_append_right _ (List.mem_cons_self ..)
    exact ⟨at?_of_failed (ofCatalog catalog) .query hrequest (hfails.mem_plan hnode) hnested
        halike.failed store,
      at?_of_failed (ofCatalog catalog) .query hdistinct (hfails'.mem_plan hnode')
        (halike.isNested.trans hnested) halike.failed' store⟩
  · rw [hrun, hrun']
    exact herrors

/-- A nested node that finds no model leaves nothing of its own, in any order of its keys. -/
theorem same_of_unopened {host : Model × Task} (hhome : spot.home = some host) {fault : Fault}
    (hfault : catalog.resolveNested host.1 spot.name (.obj spot.fields) = .error fault) :
    (((ofCatalog catalog).run .query (request.refill (name :: below) fields')).run store).1 =
      (((ofCatalog catalog).run .query request).run store).1 := by
  have hfields : (Json.obj fields).Distinct := ((Json.distinct_obj_iff _).1 hrequest).2 _ hnode
  have hplan := hcomes.plan_unopened hrequest hnode hhome hfault hperm
  have hdistinct :=
    Record.refill_distinct ((hcomes.distinct hfields).perm hperm) (name :: below) hrequest
  obtain ⟨_, -, hrun⟩ := exists_visited haccepted hmemory hrequest store
  obtain ⟨_, -, hrun'⟩ := exists_visited haccepted hmemory hdistinct store
  have hdata : (((ofCatalog catalog).run .query (request.refill (name :: below) fields')).run
      store).1.data = (((ofCatalog catalog).run .query request).run store).1.data := by
    refine run_indistinct (steady_ofCatalog catalog (List.mem_cons_self ..)) ?_ store
    show List.Forall₂ _ (catalog.plan request).tasks (catalog.plan _).tasks
    rw [hplan]
    exact List.forall₂_same.2 fun _ _ => .same
  rw [hrun, hrun'] at hdata ⊢
  exact congrArg₂ Resolution.mk hdata (congrArg Plan.errors hplan)

end

/-- **The order of the keys in a node that fails decides nothing but where its null stands.** The node
fails in any order of them. Its null goes under its own key, or under the page key below it, the
latter exactly if an enabled page stands before the first field at fault. Where this is the same for
two orders, so is all that is answered; otherwise what is answered is the same but for what stands
under the key of the node. And of a nested node that finds no model there is not even a null: the node
around it fails, and the order of its keys decides nothing. -/
theorem failure_placed (haccepted : catalog.Accepted) (hmemory : catalog.InMemory) {request : Record}
    (hrequest : (Json.obj request).Distinct) {name : String} {fields : Record}
    (hnode : (name, .obj fields) ∈ request) {below : List String} {spot : Catalog.Spot}
    (hcomes : catalog.Comes none name fields below spot) {fields' : Record}
    (hperm : spot.fields ~ fields') (store : Store) :
    (∀ task report, catalog.Fails spot.home spot.name spot.fields task report →
      ∃ task' report', catalog.Fails spot.home spot.name fields' task' report' ∧
        task.path.keys = catalog.nullKeys spot.home spot.name spot.fields ∧
        task'.path.keys = catalog.nullKeys spot.home spot.name fields' ∧
        (((ofCatalog catalog).run .query request).run store).1.Moved
          (((ofCatalog catalog).run .query (request.refill (name :: below) fields')).run store).1
          spot task task' report report') ∧
    ∀ host fault, spot.home = some host →
      catalog.resolveNested host.1 spot.name (.obj spot.fields) = .error fault →
        (((ofCatalog catalog).run .query (request.refill (name :: below) fields')).run store).1 =
          (((ofCatalog catalog).run .query request).run store).1 :=
  ⟨fun _ _ hfails => moved_of_fails haccepted hmemory hrequest hnode hcomes hperm store hfails,
    fun _ _ hhome hfault =>
      same_of_unopened haccepted hmemory hrequest hnode hcomes hperm store hhome hfault⟩

end Engine

namespace Library

/-- Authors with books. -/
def authorsWith (books : Record) : Record := [("books", .obj books)]

/-- The node of these books. -/
def booksNode (books : Record) : Catalog.Spot where
  home := some (author, .start ⟨author, true⟩ "authors" none none)
  name := "books"
  fields := books
  paths := [["authors"]]

theorem comes_books (books : Record) :
    catalog.Comes none "authors" (authorsWith books) ["books"] (booksNode books) := by
  have hsplit : catalog.nestedFields author (authorsWith books) =
      [] ++ ("books", .obj books) :: [] := rfl
  exact .inside rfl rfl hsplit (by simp) .here

theorem authorsWith_distinct {books : Record} (h : (Json.obj books).Distinct) :
    (Json.obj [("authors", .obj (authorsWith books))]).Distinct := by
  have hinner : (Json.obj (authorsWith books)).Distinct := ⟨List.nodup_singleton _, h, trivial⟩
  exact ⟨List.nodup_singleton _, hinner, trivial⟩

/-- Books on a page, of a title that is no text. -/
def untitled : Record := [("@pagination", .bool true), ("title", .bool true)]

/-- Books of a model that is not there. -/
def unmodeled : Record := [("@model", .str "shelf"), ("title", .str "Emma")]

end Library

/-- The page is read before the title, and then behind it; and where there is no model, nothing is
read. -/
theorem Engine.failure_placed_library :
    (Library.untitled ~ Library.untitled.reverse ∧
      ∃ task report,
        Library.catalog.Fails (Library.booksNode Library.untitled).home "books" Library.untitled task
          report ∧ task.path.keys = ["books", "pagination"] ∧
      ∃ task' report',
        Library.catalog.Fails (Library.booksNode Library.untitled).home "books"
          Library.untitled.reverse task' report' ∧ task'.path.keys = ["books"] ∧
        (((ofCatalog Library.catalog).run .query
            [("authors", .obj (Library.authorsWith Library.untitled))]).run Library.stocked).1.Moved
          (((ofCatalog Library.catalog).run .query
            (Record.refill [("authors", .obj (Library.authorsWith Library.untitled))]
              ["authors", "books"] Library.untitled.reverse)).run Library.stocked).1
          (Library.booksNode Library.untitled) task task' report report') ∧
    Library.unmodeled ~ Library.unmodeled.reverse ∧
      Library.catalog.resolveNested Library.author "books" (.obj Library.unmodeled) =
        .error (.unknownKey "books") ∧
      (((ofCatalog Library.catalog).run .query
          (Record.refill [("authors", .obj (Library.authorsWith Library.unmodeled))]
            ["authors", "books"] Library.unmodeled.reverse)).run Library.stocked).1 =
        (((ofCatalog Library.catalog).run .query
          [("authors", .obj (Library.authorsWith Library.unmodeled))]).run Library.stocked).1 := by
  have hperm : ∀ books : Record, books ~ books.reverse := fun books => (List.reverse_perm books).symm
  constructor
  · have hdistinct : (Json.obj Library.untitled).Distinct := ⟨by decide, trivial, trivial, trivial⟩
    obtain ⟨task, report, hfails⟩ : ∃ task report,
        Library.catalog.Fails (Library.booksNode Library.untitled).home "books" Library.untitled task
          report :=
      Catalog.Fails.exists_of_fault rfl (by decide +kernel)
    obtain ⟨task', report', hfails', hkeys, hkeys', hmoved⟩ := (failure_placed Library.accepted
      Library.inMemory (Library.authorsWith_distinct hdistinct) (List.mem_singleton_self _)
      (Library.comes_books _) (hperm _) Library.stocked).1 task report hfails
    have hpaged : Library.catalog.nullKeys (Library.booksNode Library.untitled).home "books"
        Library.untitled = ["books", "pagination"] := by decide +kernel
    have hplain : Library.catalog.nullKeys (Library.booksNode Library.untitled).home "books"
        Library.untitled.reverse = ["books"] := by decide +kernel
    exact ⟨hperm _, task, report, hfails, hkeys.trans hpaged, task', report', hfails',
      hkeys'.trans hplain, hmoved⟩
  · have hdistinct : (Json.obj Library.unmodeled).Distinct := ⟨by decide, trivial, trivial, trivial⟩
    have hfault : Library.catalog.resolveNested Library.author "books" (.obj Library.unmodeled) =
        .error (.unknownKey "books") := rfl
    exact ⟨hperm _, hfault, (failure_placed Library.accepted Library.inMemory
      (Library.authorsWith_distinct hdistinct) (List.mem_singleton_self _) (Library.comes_books _)
      (hperm _) Library.stocked).2 _ _ rfl hfault⟩

/-- So the order of the keys does decide where the null stands. -/
theorem Engine.not_failure_unmoved :
    ¬ ∀ (request : Record) (name : String) (fields fields' : Record) (below : List String)
        (spot : Catalog.Spot) (task : Task) (report : String) (store : Store),
      (Json.obj request).Distinct → (name, .obj fields) ∈ request →
      Library.catalog.Comes none name fields below spot →
      Library.catalog.Fails spot.home spot.name spot.fields task report → spot.fields ~ fields' →
        (((ofCatalog Library.catalog).run .query request).run store).1.data =
          (((ofCatalog Library.catalog).run .query
            (request.refill (name :: below) fields')).run store).1.data := by
  intro hall
  let fields : Record := [("@pagination", .bool true), ("id", .str "x")]
  have hdistinct : (Json.obj [("authors", .obj fields)]).Distinct := by
    simp [fields, Keyed.keys, Json.Distinct, Json.DistinctFields]
  obtain ⟨task, report, hfails⟩ : ∃ task report,
      Library.catalog.Fails none "authors" fields task report :=
    Catalog.Fails.exists_of_fault rfl (by decide +kernel)
  have hsame := hall [("authors", .obj fields)] "authors" fields fields.reverse []
    ⟨none, "authors", fields, []⟩ task report Library.stocked hdistinct (List.mem_singleton_self _)
    .here hfails (List.reverse_perm _).symm
  -- below the page key, and under the key of the authors
  have hpaged : (((ofCatalog Library.catalog).run .query [("authors", .obj fields)]).run
      Library.stocked).1.data.at? ["authors", "pagination"] |>.isSome := by decide +kernel
  have hplain : (((ofCatalog Library.catalog).run .query
      (Record.refill [("authors", .obj fields)] ["authors"] fields.reverse)).run
      Library.stocked).1.data.at? ["authors", "pagination"] |>.isNone := by decide +kernel
  rw [hsame] at hpaged
  simp [Option.isNone_iff_eq_none.1 hplain] at hpaged

end NestedQuery
