import NestedQuery.Proofs.Plan.Fitting
import NestedQuery.Resolve.Run
/-!
# The walk, told along the forest

The walk goes through a list and skips by counting. Where the counts are
right it goes through the forest: after a task with an outcome through
what is nested in it, after one without past it. `Engine.Follows` tells
it so, and keeps what was met on the way as a forest of visits; the walk
of a plan is the walk so told (`walk_follows`).

A visit remembers how far the walk had come when the task was entered.
This is what the task sees of the request, so it is also where one can
say which records it is joined to.
-/

namespace NestedQuery

/-! ## Visits -/

/-- A task at its place, and how far the walk had come on entering it. -/
structure Stop where
  task : Task
  place : Nat
  progress : Progress

/-- What became of a branch: its task was left without outcome, and so was all that is nested in
it, or something was fetched for it and the walk went on to what is nested in it. -/
inductive Visit where
  | missed (stop : Stop) (fault : Option Fault)
  | kept (stop : Stop) (fetched : Outcome) (nested : List Visit)

namespace Visit

/-- The stop at the root. -/
def stop : Visit → Stop
  | missed stop _ => stop
  | kept stop _ _ => stop

/-- What holds of no visit at all, and of a visit in front of others if it holds of what is nested
in it and of the others, holds of every list of visits. -/
@[elab_as_elim]
theorem forest_induction {P : List Visit → Prop} (nil : P [])
    (missed : ∀ stop fault rest, P rest → P (.missed stop fault :: rest))
    (kept : ∀ stop fetched nested rest, P nested → P rest → P (.kept stop fetched nested :: rest)) :
    ∀ visits, P visits
  | [] => nil
  | .missed stop fault :: rest =>
    missed stop fault rest (forest_induction nil missed kept rest)
  | .kept stop fetched nested :: rest =>
    kept stop fetched nested rest (forest_induction nil missed kept nested)
      (forest_induction nil missed kept rest)

end Visit

/-- A task with the outcome that was fetched for it: whom nested tasks are joined to. -/
structure Host where
  task : Task
  place : Nat
  fetched : Outcome

/-- The task of a stop with its outcome. -/
def Stop.host (stop : Stop) (fetched : Outcome) : Host := ⟨stop.task, stop.place, fetched⟩

/-- A visit is nested in that of a host, somewhere among some visits. -/
inductive Visit.Nests : List Visit → Host → Visit → Prop where
  | here {stop : Stop} {fetched : Outcome} {nested rest : List Visit} {visit : Visit} :
      visit ∈ nested → Nests (.kept stop fetched nested :: rest) (stop.host fetched) visit
  | inside {stop : Stop} {fetched : Outcome} {nested rest : List Visit} {host : Host}
      {visit : Visit} :
      Nests nested host visit → Nests (.kept stop fetched nested :: rest) host visit
  | behind {first : Visit} {rest : List Visit} {host : Host} {visit : Visit} :
      Nests rest host visit → Nests (first :: rest) host visit

/-- A visit is among some visits or nested in one of them. -/
def Visit.Occurs (visits : List Visit) (visit : Visit) : Prop :=
  visit ∈ visits ∨ ∃ host, Nests visits host visit

namespace Visit

variable {visit : Visit} {rest : List Visit}

theorem occurs_nil : ¬ Occurs [] visit := by
  rintro (hmem | ⟨host, hnests⟩)
  · cases hmem
  · cases hnests

theorem occurs_missed {stop : Stop} {fault : Option Fault} :
    Occurs (.missed stop fault :: rest) visit ↔ visit = .missed stop fault ∨ Occurs rest visit := by
  constructor
  · rintro (hmem | ⟨host, hnests⟩)
    · exact (List.mem_cons.1 hmem).imp_right Or.inl
    · cases hnests with
      | behind hnests => exact Or.inr (Or.inr ⟨host, hnests⟩)
  · rintro (rfl | hmem | ⟨host, hnests⟩)
    · exact Or.inl (List.mem_cons_self ..)
    · exact Or.inl (List.mem_cons_of_mem _ hmem)
    · exact Or.inr ⟨host, .behind hnests⟩

theorem occurs_kept {stop : Stop} {fetched : Outcome} {nested : List Visit} :
    Occurs (.kept stop fetched nested :: rest) visit ↔
      visit = .kept stop fetched nested ∨ Occurs nested visit ∨ Occurs rest visit := by
  constructor
  · rintro (hmem | ⟨host, hnests⟩)
    · exact (List.mem_cons.1 hmem).imp_right fun hmem => Or.inr (Or.inl hmem)
    · cases hnests with
      | here hmem => exact Or.inr (Or.inl (Or.inl hmem))
      | inside hnests => exact Or.inr (Or.inl (Or.inr ⟨host, hnests⟩))
      | behind hnests => exact Or.inr (Or.inr (Or.inr ⟨host, hnests⟩))
  · rintro (rfl | (hmem | ⟨host, hnests⟩) | hmem | ⟨host, hnests⟩)
    · exact Or.inl (List.mem_cons_self ..)
    · exact Or.inr ⟨_, .here hmem⟩
    · exact Or.inr ⟨host, .inside hnests⟩
    · exact Or.inl (List.mem_cons_of_mem _ hmem)
    · exact Or.inr ⟨host, .behind hnests⟩

end Visit

/-- The faults met on some visits, in order. -/
def Visit.faultsOf : List Visit → List (Stop × Fault)
  | [] => []
  | .missed stop fault :: rest => fault.toList.map (fun f => (stop, f)) ++ faultsOf rest
  | .kept _ _ nested :: rest => faultsOf nested ++ faultsOf rest

/-- The report of a fault met at a stop. -/
def Stop.report (stop : Stop) (fault : Fault) : String :=
  stop.task.path.text ++ ": " ++ fault.message

/-- A task is nested in a parent, somewhere in a forest. -/
inductive Branch.Nests : List Branch → Task → Task → Prop where
  | here {task : Task} {nested rest : List Branch} {branch : Branch} :
      branch ∈ nested → Nests (.node task nested :: rest) task branch.root
  | inside {task : Task} {nested rest : List Branch} {parent child : Task} :
      Nests nested parent child → Nests (.node task nested :: rest) parent child
  | behind {first : Branch} {rest : List Branch} {parent child : Task} :
      Nests rest parent child → Nests (first :: rest) parent child

/-- What is nested in a task is a task of the forest too. -/
theorem Branch.Nests.mem_tasksOf {branches : List Branch} {task child : Task}
    (h : Nests branches task child) : child ∈ tasksOf branches := by
  induction h with
  | here hmem => simp [root_mem_tasksOf hmem]
  | inside _ ih => simp [ih]
  | @behind first _ _ _ _ ih =>
    obtain ⟨root, nested⟩ := first
    simp [ih]

namespace Engine

variable {σ : Type}

/-- The walk through a forest from a place on: from one progress and one state, by some visits, to
another progress and another state. -/
inductive Follows (engine : Engine σ) (operation : Operation) (input : Record) :
    List Branch → Nat → Progress → σ → List Visit → Progress → σ → Prop where
  | nil {place : Nat} {progress : Progress} {s : σ} :
      Follows engine operation input [] place progress s [] progress s
  /-- The task has no outcome; what is nested in it is passed over. -/
  | missed {task : Task} {nested rest : List Branch} {place : Nat} {progress progress' : Progress}
      {s s₁ s' : σ} {fault : Option Fault} {visits : List Visit} :
      (engine.attempt ⟨operation, engine.catalog, input, (progress.enter task place).cache⟩
        task).run s = (.error fault, s₁) →
      Follows engine operation input rest (place + 1 + (Branch.tasksOf nested).length)
        ((progress.enter task place).miss task fault) s₁ visits progress' s' →
      Follows engine operation input (.node task nested :: rest) place progress s
        (.missed ⟨task, place, progress.enter task place⟩ fault :: visits) progress' s'
  /-- The task has an outcome, and then it is the turn of what is nested in it. -/
  | kept {task : Task} {nested rest : List Branch} {place : Nat}
      {progress progress₁ progress' : Progress} {s s₁ s₂ s' : σ} {fetched : Outcome}
      {inner visits : List Visit} :
      (engine.attempt ⟨operation, engine.catalog, input, (progress.enter task place).cache⟩
        task).run s = (.ok fetched, s₁) →
      Follows engine operation input nested (place + 1)
        ((progress.enter task place).keep task place fetched) s₁ inner progress₁ s₂ →
      Follows engine operation input rest (place + 1 + (Branch.tasksOf nested).length)
        progress₁ s₂ visits progress' s' →
      Follows engine operation input (.node task nested :: rest) place progress s
        (.kept ⟨task, place, progress.enter task place⟩ fetched inner :: visits) progress' s'

variable {engine : Engine σ} {operation : Operation} {input : Record}

/-! ## The walk of a list and the walk of a forest -/

theorem walk_run_error {place : Nat} {task : Task} {rest : List Task} {progress : Progress}
    {s s' : σ} {fault : Option Fault}
    (h : (engine.attempt ⟨operation, engine.catalog, input, (progress.enter task place).cache⟩
      task).run s = (.error fault, s')) :
    (engine.walk operation input place (task :: rest) progress).run s =
      (engine.walk operation input (place + 1 + task.childCount) (rest.drop task.childCount)
        ((progress.enter task place).miss task fault)).run s' := by
  rw [walk, StateT.run_bind, h]
  rfl

theorem walk_run_ok {place : Nat} {task : Task} {rest : List Task} {progress : Progress}
    {s s' : σ} {fetched : Outcome}
    (h : (engine.attempt ⟨operation, engine.catalog, input, (progress.enter task place).cache⟩
      task).run s = (.ok fetched, s')) :
    (engine.walk operation input place (task :: rest) progress).run s =
      (engine.walk operation input (place + 1) rest
        ((progress.enter task place).keep task place fetched)).run s' := by
  rw [walk, StateT.run_bind, h]
  rfl

/-- Where the counts are right, the walk goes through a forest in front of other tasks. -/
theorem exists_follows {catalog : Catalog} {parent : Option Task} {branches : List Branch}
    (hfits : Branch.Fits catalog parent branches) (tasks : List Task) (place : Nat)
    (progress : Progress) (s : σ) :
    ∃ visits progress' s',
      engine.Follows operation input branches place progress s visits progress' s' ∧
      (engine.walk operation input place (Branch.tasksOf branches ++ tasks) progress).run s =
        (engine.walk operation input (place + (Branch.tasksOf branches).length) tasks
          progress').run s' := by
  induction hfits generalizing tasks place progress s with
  | nil => exact ⟨[], progress, s, .nil, by simp⟩
  | @node _ task nested rest hbelow hcount hnested hrest ihnested ihrest =>
    rw [Branch.tasksOf_node, List.cons_append, List.append_assoc, List.length_cons,
      List.length_append]
    cases hattempt : (engine.attempt ⟨operation, engine.catalog, input,
        (progress.enter task place).cache⟩ task).run s with
    | mk result s₁ =>
      cases result with
      | error fault =>
        obtain ⟨visits, progress', s', hfollows, hwalk⟩ := ihrest tasks
          (place + 1 + (Branch.tasksOf nested).length) ((progress.enter task place).miss task fault) s₁
        refine ⟨_, progress', s', .missed hattempt hfollows, ?_⟩
        rw [walk_run_error hattempt, hcount, List.drop_left, hwalk]
        congr 2
        omega
      | ok fetched =>
        obtain ⟨inner, progress₁, s₂, hinner, hwalkInner⟩ := ihnested
          (Branch.tasksOf rest ++ tasks) (place + 1)
          ((progress.enter task place).keep task place fetched) s₁
        obtain ⟨visits, progress', s', hfollows, hwalk⟩ := ihrest tasks
          (place + 1 + (Branch.tasksOf nested).length) progress₁ s₂
        refine ⟨_, progress', s', .kept hattempt hinner hfollows, ?_⟩
        rw [walk_run_ok hattempt, hwalkInner, hwalk]
        congr 2
        omega

/-- **The walk of a plan goes through its forest.** -/
theorem walk_follows (engine : Engine σ) (operation : Operation) (request : Record) (s : σ) :
    ∃ visits final s',
      engine.Follows operation request (engine.catalog.forest request) 0
        (.start (engine.catalog.plan request)) s visits final s' ∧
      (engine.walk operation request 0 (engine.catalog.plan request).tasks
        (.start (engine.catalog.plan request))).run s = (final, s') := by
  have hexists : ∃ visits final s',
      engine.Follows operation request (engine.catalog.forest request) 0
        (.start (engine.catalog.plan request)) s visits final s' ∧ _ :=
    exists_follows (engine.catalog.fits_forest request) [] 0
      (.start (engine.catalog.plan request)) s
  obtain ⟨visits, final, s', hfollows, hwalk⟩ := hexists
  refine ⟨visits, final, s', hfollows, ?_⟩
  rw [List.append_nil] at hwalk
  rw [Catalog.plan_tasks, hwalk, walk]
  rfl

/-- A run answers with what the slots of its walk settle to. -/
theorem run_settled (engine : Engine σ) (operation : Operation) (request : Record) (s : σ) :
    ∃ visits final s',
      engine.Follows operation request (engine.catalog.forest request) 0
        (.start (engine.catalog.plan request)) s visits final s' ∧
      (engine.run operation request).run s =
        ({ data := collect (engine.catalog.plan request).tasks final.settled,
           errors := final.errors }, s') := by
  obtain ⟨visits, final, s', hfollows, hwalk⟩ := walk_follows engine operation request s
  refine ⟨visits, final, s', hfollows, ?_⟩
  rw [run, resolve, StateT.run_bind, hwalk]
  rfl

/-! ## What the visits of a walk are -/

variable {branches : List Branch} {place : Nat} {progress final : Progress} {s s' : σ}
  {visits : List Visit}

/-- A visit above all others, or below, was made by the engine. -/
theorem Follows.attempt_of_missed
    (h : engine.Follows operation input branches place progress s visits final s') {stop : Stop}
    {fault : Option Fault} (hoccurs : Visit.Occurs visits (.missed stop fault)) :
    ∃ s₁ s₂, (engine.attempt ⟨operation, engine.catalog, input, stop.progress.cache⟩
      stop.task).run s₁ = (.error fault, s₂) := by
  induction h with
  | nil => exact absurd hoccurs Visit.occurs_nil
  | missed hattempt _ ih =>
    rcases Visit.occurs_missed.1 hoccurs with heq | hoccurs
    · cases heq
      exact ⟨_, _, hattempt⟩
    · exact ih hoccurs
  | kept _ _ _ ihnested ih =>
    rcases Visit.occurs_kept.1 hoccurs with heq | hoccurs | hoccurs
    · cases heq
    · exact ihnested hoccurs
    · exact ih hoccurs

/-- Visits are made to roots. -/
theorem Follows.root_of_mem
    (h : engine.Follows operation input branches place progress s visits final s') {visit : Visit}
    (hmem : visit ∈ visits) : ∃ branch ∈ branches, branch.root = visit.stop.task := by
  induction h with
  | nil => cases hmem
  | missed _ _ ih =>
    rcases List.mem_cons.1 hmem with rfl | hmem
    · exact ⟨_, List.mem_cons_self .., rfl⟩
    · obtain ⟨branch, hbranch, hroot⟩ := ih hmem
      exact ⟨branch, List.mem_cons_of_mem _ hbranch, hroot⟩
  | kept _ _ _ _ ih =>
    rcases List.mem_cons.1 hmem with rfl | hmem
    · exact ⟨_, List.mem_cons_self .., rfl⟩
    · obtain ⟨branch, hbranch, hroot⟩ := ih hmem
      exact ⟨branch, List.mem_cons_of_mem _ hbranch, hroot⟩

/-- Visits are nested as their tasks are. -/
theorem Follows.nests
    (h : engine.Follows operation input branches place progress s visits final s') {host : Host}
    {visit : Visit} (hnests : Visit.Nests visits host visit) :
    Branch.Nests branches host.task visit.stop.task := by
  induction h with
  | nil => cases hnests
  | missed _ _ ih =>
    cases hnests with
    | behind hnests => exact .behind (ih hnests)
  | kept _ hnested _ ihnested ih =>
    cases hnests with
    | here hmem =>
      obtain ⟨branch, hbranch, hroot⟩ := hnested.root_of_mem hmem
      exact hroot ▸ .here hbranch
    | inside hnests => exact .inside (ihnested hnests)
    | behind hnests => exact .behind (ih hnests)

/-- A host stands at its place. -/
theorem Follows.place_of_nests
    (h : engine.Follows operation input branches place progress s visits final s') {host : Host}
    {visit : Visit} (hnests : Visit.Nests visits host visit) :
    ∃ i, host.place = place + i ∧ (Branch.tasksOf branches)[i]? = some host.task := by
  induction h with
  | nil => cases hnests
  | @missed task nested rest place _ _ _ _ _ _ _ _ _ ih =>
    cases hnests with
    | behind hnests =>
      obtain ⟨i, hplace, htask⟩ := ih hnests
      refine ⟨1 + (Branch.tasksOf nested).length + i, by omega, ?_⟩
      rw [Branch.tasksOf_node, ← List.cons_append, List.getElem?_append_right (by simp; omega),
        ← htask]
      congr 1
      simp only [List.length_cons]
      omega
  | @kept task nested rest place _ _ _ _ _ _ _ _ _ _ _ _ _ ihnested ih =>
    cases hnests with
    | here hmem => exact ⟨0, rfl, by simp [Stop.host]⟩
    | inside hnests =>
      obtain ⟨i, hplace, htask⟩ := ihnested hnests
      obtain ⟨hi, -⟩ := List.getElem?_eq_some_iff.1 htask
      refine ⟨i + 1, by omega, ?_⟩
      rw [Branch.tasksOf_node, List.getElem?_cons_succ, List.getElem?_append_left hi, htask]
    | behind hnests =>
      obtain ⟨i, hplace, htask⟩ := ih hnests
      refine ⟨1 + (Branch.tasksOf nested).length + i, by omega, ?_⟩
      rw [Branch.tasksOf_node, ← List.cons_append, List.getElem?_append_right (by simp; omega),
        ← htask]
      congr 1
      simp only [List.length_cons]
      omega

/-- The walk reports the faults that it meets, and nothing else. -/
theorem Follows.errors
    (h : engine.Follows operation input branches place progress s visits final s') :
    final.errors = progress.errors ++ (Visit.faultsOf visits).map fun x => x.1.report x.2 := by
  induction h with
  | nil => simp [Visit.faultsOf]
  | @missed task _ _ place progress _ _ _ _ fault visits _ _ ih =>
    rw [ih, Visit.faultsOf, List.map_append, ← List.append_assoc]
    congr 1
    cases fault with
    | none => simp [Progress.miss, Progress.enter]
    | some fault => rfl
  | kept _ _ _ ihnested ih =>
    rw [ih, ihnested, Visit.faultsOf, List.map_append, ← List.append_assoc]
    rfl

theorem occurs_of_mem_faultsOf {stop : Stop} {fault : Fault}
    (hmem : (stop, fault) ∈ Visit.faultsOf visits) :
    Visit.Occurs visits (.missed stop (some fault)) := by
  induction visits using Visit.forest_induction with
  | nil => simp [Visit.faultsOf] at hmem
  | missed other found rest ih =>
    rw [Visit.faultsOf, List.mem_append] at hmem
    rcases hmem with hmem | hmem
    · obtain ⟨f, hf, heq⟩ := List.mem_map.1 hmem
      obtain ⟨rfl, rfl⟩ := Prod.mk.inj heq
      obtain rfl := Option.mem_toList.1 hf
      exact Visit.occurs_missed.2 (Or.inl rfl)
    · exact Visit.occurs_missed.2 (Or.inr (ih hmem))
  | kept other fetched nested rest ihnested ih =>
    rw [Visit.faultsOf, List.mem_append] at hmem
    rcases hmem with hmem | hmem
    · exact Visit.occurs_kept.2 (Or.inr (Or.inl (ihnested hmem)))
    · exact Visit.occurs_kept.2 (Or.inr (Or.inr (ih hmem)))

end Engine

/-- Below another task there is a parent. -/
theorem Branch.exists_nests {catalog : Catalog} {parent : Option Task} {branches : List Branch}
    (hfits : Fits catalog parent branches) {child : Task} (hmem : child ∈ tasksOf branches) :
    (∃ branch ∈ branches, branch.root = child) ∨ ∃ task, Nests branches task child := by
  induction hfits with
  | nil => simp at hmem
  | node _ _ _ _ ihnested ihrest =>
    rw [tasksOf_node, List.mem_cons, List.mem_append] at hmem
    rcases hmem with rfl | hmem | hmem
    · exact Or.inl ⟨_, List.mem_cons_self .., rfl⟩
    · rcases ihnested hmem with ⟨branch, hbranch, rfl⟩ | ⟨task, hnests⟩
      · exact Or.inr ⟨_, .here hbranch⟩
      · exact Or.inr ⟨task, .inside hnests⟩
    · rcases ihrest hmem with ⟨branch, hbranch, rfl⟩ | ⟨task, hnests⟩
      · exact Or.inl ⟨branch, List.mem_cons_of_mem _ hbranch, rfl⟩
      · exact Or.inr ⟨task, .behind hnests⟩

end NestedQuery
