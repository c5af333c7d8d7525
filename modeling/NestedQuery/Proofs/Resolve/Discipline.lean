import NestedQuery.Proofs.Resolve.Calls
/-!
# When parsers and executors are called

The engine goes through the plan and skips by counting. Seen from the
calls it makes (`Engine.calls`), this file tells which tasks it hands to
their executors: those without error whose parser had arguments for
them, and whose ancestors were all handed out before and came back with
something (`Engine.disciplined`). Nothing else is handed out, nothing
twice, and all in the order of the plan.

A visit stands for a turn of the engine, and the places of visits tell
whom a call is about. A task is reached exactly if there was an outcome
at every place above it (`Engine.Follows.reaches_iff`).
-/

namespace NestedQuery

open scoped List

variable {σ : Type}

/-! ## The calls of one task -/

namespace Task

/-- A task without its filter, which is where joins go. -/
def bare (task : Task) : Task := { task with filter := none }

/-- Joining changes the filter only. -/
theorem bare_joined {task joined : Task} {cache : JoinCache} (h : task.joined cache = .ok joined) :
    joined.bare = task.bare := by
  unfold Task.joined at h
  split at h
  · obtain rfl := Except.ok.inj h
    rfl
  · next link _ =>
    cases hconstraint : task.joinConstraint link cache with
    | error fault =>
      rw [hconstraint] at h
      cases h
    | ok constraint =>
      rw [hconstraint] at h
      obtain rfl := Except.ok.inj h
      rfl

end Task

/-- The call is that of a task's parser, for the task. -/
def ParserCall.For (call : ParserCall) (task : Task) : Prop :=
  call.id = task.parser ∧ call.task = task

/-- The call is that of a task's executor, for the task, whatever it joins to. -/
def ExecutorCall.For (call : ExecutorCall σ) (task : Task) : Prop :=
  call.id = task.executor ∧ call.task.bare = task.bare

theorem ExecutorCall.For.path_eq {call : ExecutorCall σ} {task : Task} (h : call.For task) :
    call.task.path = task.path :=
  show call.task.bare.path = task.bare.path from congrArg Task.path h.2

/-- The parser had arguments for the executor. -/
def ParserCall.Asks (call : ParserCall) (arguments : Json) : Prop :=
  call.result = .ok (some arguments)

/-- The executor came back with something. -/
def ExecutorCall.Yields (call : ExecutorCall σ) (outcome : Outcome) : Prop :=
  call.result = .ok outcome ∧ outcome.isAbsent = false

namespace Engine

theorem settle_eq_ok {result : Except Fault Outcome} {outcome : Outcome} :
    settle result = .ok outcome ↔ result = .ok outcome ∧ outcome.isAbsent = false := by
  cases result with
  | error fault => simp [settle]
  | ok found =>
    cases habsent : found.isAbsent with
    | true =>
      simp only [settle, habsent, if_pos, reduceCtorEq, Except.ok.injEq, false_iff, not_and]
      rintro rfl
      simp [habsent]
    | false =>
      simp only [settle, habsent, Except.ok.injEq]
      constructor
      · rintro ⟨⟩
        exact ⟨rfl, habsent⟩
      · rintro ⟨rfl, -⟩
        rfl

namespace Takes

variable {engine : Engine σ} {context : Context} {task : Task} {s s' : σ} {turn : List (Call σ)}
  {result : Except (Option Fault) Outcome}

/-- At most the task's parser is called, and then for the task. -/
theorem parses (h : engine.Takes context task s turn result s') :
    (turn.filterMap Call.parser?).map ParserCall.task <+ [task] := by
  cases h <;> simp [Call.parser?]

/-- At most the task's executor is called, and then for the task as it is joined. -/
theorem executions (h : engine.Takes context task s turn result s') :
    (turn.filterMap Call.executor?).map (fun call => call.task.bare) <+ [task.bare] := by
  cases h with
  | @executed _ _ _ joined _ _ _ _ _ _ hjoined =>
    show [joined.bare] <+ [task.bare]
    rw [Task.bare_joined hjoined]
  | _ => simp [Call.executor?]

/-- **When a parser is called**: the task has no error, and its parser is registered. -/
theorem parser_iff (h : engine.Takes context task s turn result s') :
    (∃ call, .parser call ∈ turn) ↔
      task.isFailed = false ∧ (engine.registry.parsers.get? task.parser).isSome := by
  cases h <;> simp_all

theorem for_of_parse (h : engine.Takes context task s turn result s') {call : ParserCall}
    (hmem : .parser call ∈ turn) : call.For task := by
  cases h <;> simp_all [ParserCall.For]

/-- **When an executor is called**: the parser had arguments, the join went well, and the executor
is registered. -/
theorem executor_iff (h : engine.Takes context task s turn result s') :
    (∃ call, .executor call ∈ turn) ↔
      (∃ call arguments, .parser call ∈ turn ∧ call.Asks arguments) ∧
        (∃ joined, task.joined context.cache = .ok joined) ∧
        (engine.registry.executors.get? task.executor).isSome := by
  cases h <;> simp_all [ParserCall.Asks]

theorem for_of_execution (h : engine.Takes context task s turn result s') {call : ExecutorCall σ}
    (hmem : .executor call ∈ turn) : call.For task := by
  cases h with
  | executed _ _ _ hjoined => simp_all [ExecutorCall.For, Task.bare_joined hjoined]
  | _ => simp_all

/-- A call of an executor is what the executor of the task does with the task as it is joined. -/
theorem executed_by (h : engine.Takes context task s turn result s') {call : ExecutorCall σ}
    (hmem : .executor call ∈ turn) :
    task.isFailed = false ∧ task.joined context.cache = .ok call.task ∧
      ∃ executor, engine.registry.executors.get? task.executor = some executor ∧
        (executor context call.task call.arguments).run.run call.before =
          (call.result, call.after) := by
  cases h <;> simp_all

/-- **What becomes of a task**: it has an outcome exactly if its executor came back with it. -/
theorem result_iff (h : engine.Takes context task s turn result s') {outcome : Outcome} :
    result = .ok outcome ↔ ∃ call, .executor call ∈ turn ∧ call.Yields outcome := by
  cases h with
  | executed => simp [settle_eq_ok, ExecutorCall.Yields]
  | _ => simp

end Takes

end Engine

/-! ## Who is reached -/

namespace Visit

theorem mem_all_iff {visits : List Visit} {visit : Visit} :
    visit ∈ all visits ↔ Occurs visits visit := by
  induction visits using forest_induction with
  | nil => simp [all, occurs_nil]
  | missed stop fault rest ih => rw [all, occurs_missed, List.mem_cons, ih]
  | kept stop fetched nested rest ihnested ih =>
    rw [all, occurs_kept, List.mem_cons, List.mem_append, ihnested, ih]

/-- A visit was made to a place. -/
def Reaches (visits : List Visit) (place : Nat) : Prop :=
  ∃ visit ∈ all visits, visit.stop.place = place

/-- A visit to a place came back with an outcome. -/
def Keeps (visits : List Visit) (place : Nat) : Prop :=
  ∃ visit ∈ all visits, visit.stop.place = place ∧ ∃ fetched, visit.result = .ok fetched

section

variable {stop : Stop} {nested rest : List Visit} {place : Nat}

@[simp] theorem reaches_missed {fault : Option Fault} :
    Reaches (.missed stop fault :: rest) place ↔ stop.place = place ∨ Reaches rest place := by
  simp [Reaches, all, Visit.stop]

@[simp] theorem keeps_missed {fault : Option Fault} :
    Keeps (.missed stop fault :: rest) place ↔ Keeps rest place := by
  simp [Keeps, all, Visit.stop, result]

@[simp] theorem reaches_kept {fetched : Outcome} :
    Reaches (.kept stop fetched nested :: rest) place ↔
      stop.place = place ∨ Reaches nested place ∨ Reaches rest place := by
  simp [Reaches, all, Visit.stop, or_and_right, exists_or]

@[simp] theorem keeps_kept {fetched : Outcome} :
    Keeps (.kept stop fetched nested :: rest) place ↔
      stop.place = place ∨ Keeps nested place ∨ Keeps rest place := by
  simp [Keeps, all, Visit.stop, result, or_and_right, exists_or]

theorem Keeps.reaches {visits : List Visit} (h : Keeps visits place) : Reaches visits place := by
  obtain ⟨visit, hmem, hplace, -⟩ := h
  exact ⟨visit, hmem, hplace⟩

end

end Visit

/-- What a task of a forest is nested in was there before, or is at an earlier place of the
forest. -/
theorem Branch.above_bounds {above : List (Nat × Task)} {place : Nat} {branches : List Branch}
    {p : Placed} (hp : p ∈ placedOf above place branches) {x : Nat × Task} (hx : x ∈ p.above) :
    x ∈ above ∨ place ≤ x.1 ∧ x.1 < p.place := by
  obtain ⟨new, hnew, hmem⟩ := above_split hp
  rw [hnew, List.mem_append] at hx
  rcases hx with hx | hx
  · obtain ⟨hlt, a, ha, rfl⟩ := hmem x hx
    exact Or.inr ⟨(place_bounds ha).1, hlt⟩
  · exact Or.inl hx

namespace Engine.Follows

variable {engine : Engine σ} {operation : Operation} {input : Record} {branches : List Branch}
  {above : List (Nat × Task)} {place : Nat} {progress progress' : Progress} {s s' : σ}
  {visits : List Visit}

/-- Visits are made to the tasks of the forest, in order. -/
theorem entries
    (h : engine.Follows operation input branches place progress s visits progress' s') :
    (Visit.all visits).map (fun visit => (visit.stop.place, visit.stop.task)) <+
      (Branch.placedOf above place branches).map Placed.entry := by
  induction h generalizing above with
  | nil => simp [Visit.all]
  | missed _ _ ih =>
    rw [Visit.all, Branch.placedOf_node, List.map_cons, List.map_cons, List.map_append]
    exact (ih.trans (List.sublist_append_right ..)).cons_cons _
  | kept _ _ _ ihinner ih =>
    rw [Visit.all, Branch.placedOf_node, List.map_cons, List.map_cons, List.map_append,
      List.map_append]
    exact (ihinner.append ih).cons_cons _

/-- Visits are made to tasks of the plan. -/
theorem getElem?_plan {request : Record}
    (h : engine.Follows operation request (engine.catalog.forest request) 0
      (.start (engine.catalog.plan request)) s visits progress' s') {visit : Visit}
    (hoccurs : Visit.Occurs visits visit) :
    (engine.catalog.plan request).tasks[visit.stop.place]? = some visit.stop.task := by
  have hentry : (visit.stop.place, visit.stop.task) ∈
      (engine.catalog.placedTasks request).map Placed.entry :=
    h.entries.subset (List.mem_map_of_mem (Visit.mem_all_iff.2 hoccurs))
  obtain ⟨p, hp, heq⟩ := List.mem_map.1 hentry
  exact Catalog.getElem?_plan_iff.2 ⟨p, hp, congrArg Prod.fst heq, congrArg Prod.snd heq⟩

/-- The places of visits are among those of the forest. -/
theorem reaches_bounds
    (h : engine.Follows operation input branches place progress s visits progress' s') {k : Nat}
    (hreaches : Visit.Reaches visits k) :
    place ≤ k ∧ k < place + (Branch.tasksOf branches).length := by
  obtain ⟨visit, hmem, rfl⟩ := hreaches
  have hentry : (visit.stop.place, visit.stop.task) ∈
      (Branch.placedOf [] place branches).map Placed.entry :=
    h.entries.subset (List.mem_map_of_mem hmem)
  obtain ⟨p, hp, heq⟩ := List.mem_map.1 hentry
  have hplace : p.place = visit.stop.place := congrArg Prod.fst heq
  exact hplace ▸ Branch.place_bounds hp

/-- **Who is reached**: a task at a place is visited exactly if everything above it in the forest
was, and came back with an outcome. -/
theorem reaches_iff
    (h : engine.Follows operation input branches place progress s visits progress' s')
    (habove : ∀ x ∈ above, x.1 < place) {p : Placed}
    (hp : p ∈ Branch.placedOf above place branches) :
    Visit.Reaches visits p.place ↔ ∀ x ∈ p.above, x ∈ above ∨ Visit.Keeps visits x.1 := by
  induction h generalizing above with
  | nil => simp at hp
  | @missed task nested rest place _ _ _ _ _ _ _ _ hrest ih =>
    rw [Branch.placedOf_node, List.mem_cons, List.mem_append] at hp
    rw [Visit.reaches_missed]
    simp only [Visit.keeps_missed]
    rcases hp with rfl | hp | hp
    · exact iff_of_true (Or.inl rfl) fun x hx => Or.inl hx
    · -- below a task without outcome no place is visited: the others come later
      have hbounds := Branch.place_bounds hp
      obtain ⟨new, hnew, -⟩ := Branch.above_split hp
      refine iff_of_false ?_ fun hall => ?_
      · rintro (heq | hreaches)
        · omega
        · have := hrest.reaches_bounds hreaches
          omega
      · rcases hall (place, task) (by simp [hnew]) with hmem | hkeeps
        · exact absurd (habove _ hmem) (Nat.lt_irrefl _)
        · have := hrest.reaches_bounds hkeeps.reaches
          omega
    · have hbounds := Branch.place_bounds hp
      rw [← ih (fun x hx => by have := habove x hx; omega) hp, or_iff_right (by omega)]
  | @kept task nested rest place _ _ _ _ _ _ _ _ _ _ _ hinner hrest ihinner ih =>
    rw [Branch.placedOf_node, List.mem_cons, List.mem_append] at hp
    rw [Visit.reaches_kept]
    simp only [Visit.keeps_kept]
    rcases hp with rfl | hp | hp
    · exact iff_of_true (Or.inl rfl) fun x hx => Or.inl hx
    · -- whether it is reached is told by the nested visits, as their places lie before the others
      have hbounds := Branch.place_bounds hp
      have hbehind : ¬ Visit.Reaches _ p.place := fun hreaches => by
        have := hrest.reaches_bounds hreaches
        omega
      have hplace : ∀ x ∈ (place, task) :: above, x.1 < place + 1 := List.forall_mem_cons.2
        ⟨Nat.lt_succ_self _, fun x hx => Nat.lt_succ_of_lt (habove x hx)⟩
      rw [or_iff_right (by omega), or_iff_left hbehind, ihinner hplace hp]
      refine forall₂_congr fun x hx => ?_
      rcases Branch.above_bounds hp hx with hmem | hx
      · refine iff_of_true (Or.inl hmem) ?_
        exact (List.mem_cons.1 hmem).elim (fun heq => Or.inr (Or.inl (heq ▸ rfl))) Or.inl
      · have hnot : x ∉ (place, task) :: above := fun hmem => by
          have := hplace x hmem
          omega
        have hkeeps : ¬ Visit.Keeps _ x.1 := fun hkeeps => by
          have := hrest.reaches_bounds hkeeps.reaches
          omega
        rw [or_iff_right hnot, or_iff_right fun hmem => hnot (List.mem_cons_of_mem _ hmem),
          or_iff_right (by omega), or_iff_left hkeeps]
    · -- and by the later visits, where nothing new above it lies at an earlier place
      have hbounds := Branch.place_bounds hp
      have hwithin : ¬ Visit.Reaches _ p.place := fun hreaches => by
        have := hinner.reaches_bounds hreaches
        omega
      rw [or_iff_right (by omega), or_iff_right hwithin,
        ih (fun x hx => by have := habove x hx; omega) hp]
      refine forall₂_congr fun x hx => or_congr_right' fun hnot => ?_
      have hx := (Branch.above_bounds hp hx).resolve_left hnot
      have hkeeps : ¬ Visit.Keeps _ x.1 := fun hkeeps => by
        have := hinner.reaches_bounds hkeeps.reaches
        omega
      rw [or_iff_right (by omega), or_iff_right hkeeps]

end Engine.Follows

/-! ## Tasks and their paths -/

namespace Catalog

variable {catalog : Catalog} {request : Record}

/-- Tasks of a plan that have the same path stand at the same place. -/
theorem index_eq_of_full (hrequest : (Json.obj request).Distinct) {i j : Nat} {a b : Task}
    (ha : (catalog.plan request).tasks[i]? = some a)
    (hb : (catalog.plan request).tasks[j]? = some b) (hfull : a.path.full = b.path.full) :
    i = j := by
  obtain ⟨p, hp, rfl, rfl⟩ := getElem?_plan_iff.1 ha
  obtain ⟨q, hq, rfl, rfl⟩ := getElem?_plan_iff.1 hb
  by_contra hne
  have hmem := (prefix_iff_above hrequest hp hq hne).1 (hfull ▸ List.prefix_rfl)
  exact (Branch.full_prefix (catalog.fits_forest request) (by simp) hq hmem).2 hfull

theorem nodup_full (hrequest : (Json.obj request).Distinct) :
    ((catalog.plan request).tasks.map fun task => task.path.full).Nodup := by
  rw [List.Nodup, List.pairwise_map, List.pairwise_iff_getElem]
  intro i j hi hj hlt heq
  have := index_eq_of_full hrequest (List.getElem?_eq_getElem hi) (List.getElem?_eq_getElem hj) heq
  omega

theorem map_entry_placedTasks : (catalog.placedTasks request).map (fun p => p.entry.2) =
    (catalog.plan request).tasks :=
  Branch.map_task_placedOf.trans (catalog.plan_tasks request).symm

theorem nodup_place : ((catalog.placedTasks request).map fun p => p.entry.1).Nodup := by
  have hplaces : (catalog.placedTasks request).map Placed.place = _ := Branch.map_place_placedOf
  exact hplaces ▸ List.nodup_range'

end Catalog

/-! ## The turns of a run -/

namespace Engine

/-- What a run went through: its visits, in order, each with the calls that were made on it. -/
structure Tour (engine : Engine σ) (operation : Operation) (request : Record) (s : σ)
    (visits : List Visit) (turns : List (Visit × List (Call σ))) : Prop where
  follows : ∃ final s', engine.Follows operation request (engine.catalog.forest request) 0
    (.start (engine.catalog.plan request)) s visits final s'
  visited : turns.map Prod.fst = Visit.all visits
  calls : engine.calls operation request s = turns.flatMap Prod.snd
  takes : ∀ x ∈ turns, ∃ s₁ s₂,
    engine.Takes ⟨operation, engine.catalog, request, x.1.stop.progress.cache⟩ x.1.stop.task s₁ x.2
      x.1.result s₂

theorem exists_tour (engine : Engine σ) (operation : Operation) (request : Record) (s : σ) :
    ∃ visits turns, engine.Tour operation request s visits turns := by
  obtain ⟨visits, final, w', hfollows, hsettled⟩ :=
    run_settled engine.watched operation request ⟨s, []⟩
  obtain ⟨turns, hvisited, hcalls, htakes⟩ := hfollows.exists_turns
  refine ⟨visits, turns, ⟨final, w'.state, hfollows.of_watched⟩, hvisited, ?_, htakes⟩
  have hrun : engine.calls operation request s = w'.calls := by rw [calls, hsettled]
  rw [hrun, hcalls]
  exact List.nil_append _

namespace Tour

variable {engine : Engine σ} {operation : Operation} {request : Record} {s : σ}
  {visits : List Visit} {turns : List (Visit × List (Call σ))}

theorem mem_executions (h : engine.Tour operation request s visits turns)
    {call : ExecutorCall σ} : call ∈ engine.executions operation request s ↔
      ∃ x ∈ turns, .executor call ∈ x.2 := by
  simp only [Engine.executions, h.calls, List.mem_filterMap, List.mem_flatMap,
    Call.executor?_eq_some, exists_eq_right]

theorem mem_parses (h : engine.Tour operation request s visits turns) {call : ParserCall} :
    call ∈ engine.parses operation request s ↔ ∃ x ∈ turns, .parser call ∈ x.2 := by
  simp only [Engine.parses, h.calls, List.mem_filterMap, List.mem_flatMap, Call.parser?_eq_some,
    exists_eq_right]

/-- There is a turn for each visit. -/
theorem exists_turn (h : engine.Tour operation request s visits turns) {visit : Visit}
    (hmem : visit ∈ Visit.all visits) : ∃ turn, (visit, turn) ∈ turns := by
  rw [← h.visited] at hmem
  obtain ⟨⟨_, turn⟩, hx, rfl⟩ := List.mem_map.1 hmem
  exact ⟨turn, hx⟩

theorem mem_all (h : engine.Tour operation request s visits turns)
    {x : Visit × List (Call σ)} (hx : x ∈ turns) : x.1 ∈ Visit.all visits :=
  h.visited ▸ List.mem_map_of_mem hx

/-- The turns are those of tasks of the plan, in order. -/
theorem entries (h : engine.Tour operation request s visits turns) :
    turns.map (fun x => (x.1.stop.place, x.1.stop.task)) <+
      (engine.catalog.placedTasks request).map Placed.entry := by
  obtain ⟨final, s', hfollows⟩ := h.follows
  have hentries : _ <+ (Branch.placedOf [] 0 _).map Placed.entry := hfollows.entries
  rwa [← h.visited, List.map_map] at hentries

theorem getElem?_plan (h : engine.Tour operation request s visits turns)
    {x : Visit × List (Call σ)} (hx : x ∈ turns) :
    (engine.catalog.plan request).tasks[x.1.stop.place]? = some x.1.stop.task := by
  obtain ⟨final, s', hfollows⟩ := h.follows
  exact hfollows.getElem?_plan (Visit.mem_all_iff.1 (h.mem_all hx))

/-- A task has one turn at most. -/
theorem eq_of_place (h : engine.Tour operation request s visits turns)
    {x y : Visit × List (Call σ)} (hx : x ∈ turns) (hy : y ∈ turns)
    (heq : x.1.stop.place = y.1.stop.place) : x = y := by
  have hsublist := h.entries.map Prod.fst
  rw [List.map_map, List.map_map] at hsublist
  exact List.inj_on_of_nodup_map (Catalog.nodup_place.sublist hsublist) hx hy heq

/-- On every turn the join goes well. -/
theorem exists_joined (h : engine.Tour operation request s visits turns)
    {x : Visit × List (Call σ)} (hx : x ∈ turns) :
    ∃ joined, x.1.stop.task.joined x.1.stop.progress.cache = .ok joined := by
  obtain ⟨final, s', hfollows⟩ := h.follows
  exact Engine.exists_joined hfollows (Visit.mem_all_iff.1 (h.mem_all hx))

/-- The turn of a task is known by the path. -/
theorem eq_of_full (h : engine.Tour operation request s visits turns)
    (hrequest : (Json.obj request).Distinct) {x : Visit × List (Call σ)} (hx : x ∈ turns) {j : Nat}
    {task : Task} (htask : (engine.catalog.plan request).tasks[j]? = some task)
    (hfull : x.1.stop.task.path.full = task.path.full) :
    x.1.stop.place = j ∧ x.1.stop.task = task := by
  have hplan := h.getElem?_plan hx
  obtain rfl := Catalog.index_eq_of_full hrequest hplan htask hfull
  exact ⟨rfl, Option.some.inj (hplan.symm.trans htask)⟩

/-- A call of an executor with a task of some path is made on the turn of the task of that path. -/
theorem exists_turn_of_full (h : engine.Tour operation request s visits turns)
    (hrequest : (Json.obj request).Distinct) {j : Nat} {task : Task}
    (htask : (engine.catalog.plan request).tasks[j]? = some task) {call : ExecutorCall σ}
    (hcall : call ∈ engine.executions operation request s)
    (hfull : call.task.path.full = task.path.full) :
    ∃ x ∈ turns, x.1.stop.place = j ∧ x.1.stop.task = task ∧ .executor call ∈ x.2 := by
  obtain ⟨x, hx, hmem⟩ := h.mem_executions.1 hcall
  obtain ⟨s₁, s₂, htakes⟩ := h.takes x hx
  have hpath := (htakes.for_of_execution hmem).path_eq
  obtain ⟨hplace, hsame⟩ := h.eq_of_full hrequest hx htask (hpath ▸ hfull)
  exact ⟨x, hx, hplace, hsame, hmem⟩

/-- The executor calls for a task are those made on its turn. -/
theorem execution_iff (h : engine.Tour operation request s visits turns)
    (hrequest : (Json.obj request).Distinct) {j : Nat} {task : Task}
    (htask : (engine.catalog.plan request).tasks[j]? = some task) {call : ExecutorCall σ} :
    (call ∈ engine.executions operation request s ∧ call.For task) ↔
      ∃ x ∈ turns, x.1.stop.place = j ∧ x.1.stop.task = task ∧ .executor call ∈ x.2 := by
  constructor
  · rintro ⟨hcall, hfor⟩
    exact h.exists_turn_of_full hrequest htask hcall (congrArg NodePath.full hfor.path_eq)
  · rintro ⟨x, hx, -, rfl, hcall⟩
    obtain ⟨s₁, s₂, htakes⟩ := h.takes x hx
    exact ⟨h.mem_executions.2 ⟨x, hx, hcall⟩, htakes.for_of_execution hcall⟩

/-- And so are the parser calls. -/
theorem parse_iff (h : engine.Tour operation request s visits turns)
    (hrequest : (Json.obj request).Distinct) {j : Nat} {task : Task}
    (htask : (engine.catalog.plan request).tasks[j]? = some task) {call : ParserCall} :
    (call ∈ engine.parses operation request s ∧ call.For task) ↔
      ∃ x ∈ turns, x.1.stop.place = j ∧ x.1.stop.task = task ∧ .parser call ∈ x.2 := by
  rw [h.mem_parses]
  constructor
  · rintro ⟨⟨x, hx, hcall⟩, hfor⟩
    obtain ⟨s₁, s₂, htakes⟩ := h.takes x hx
    have hsame : x.1.stop.task = task := (htakes.for_of_parse hcall).2.symm.trans hfor.2
    exact ⟨x, hx, (h.eq_of_full hrequest hx htask (by rw [hsame])).1, hsame, hcall⟩
  · rintro ⟨x, hx, -, rfl, hcall⟩
    obtain ⟨s₁, s₂, htakes⟩ := h.takes x hx
    exact ⟨⟨x, hx, hcall⟩, htakes.for_of_parse hcall⟩

/-- A call is for the task that has its path. -/
theorem for_of_full (h : engine.Tour operation request s visits turns)
    (hrequest : (Json.obj request).Distinct) {j : Nat} {task : Task}
    (htask : (engine.catalog.plan request).tasks[j]? = some task) {call : ExecutorCall σ}
    (hcall : call ∈ engine.executions operation request s)
    (hfull : call.task.path.full = task.path.full) : call.For task := by
  have hturn := h.exists_turn_of_full hrequest htask hcall hfull
  exact ((h.execution_iff hrequest htask).2 hturn).2

/-- A visit came back with an outcome exactly if an executor was called on it and yielded. -/
theorem keeps_iff (h : engine.Tour operation request s visits turns)
    (hrequest : (Json.obj request).Distinct) {i : Nat} {task : Task}
    (htask : (engine.catalog.plan request).tasks[i]? = some task) :
    Visit.Keeps visits i ↔ ∃ call ∈ engine.executions operation request s,
      call.For task ∧ ∃ outcome, call.Yields outcome := by
  constructor
  · rintro ⟨visit, hmem, rfl, outcome, hresult⟩
    obtain ⟨turn, hx⟩ := h.exists_turn hmem
    obtain ⟨s₁, s₂, htakes⟩ := h.takes _ hx
    obtain ⟨call, hcall, hyields⟩ := htakes.result_iff.1 hresult
    have hsame := Option.some.inj ((h.getElem?_plan hx).symm.trans htask)
    obtain ⟨hexecuted, hfor⟩ := (h.execution_iff hrequest htask).2 ⟨_, hx, rfl, hsame, hcall⟩
    exact ⟨call, hexecuted, hfor, outcome, hyields⟩
  · rintro ⟨call, hexecuted, hfor, outcome, hyields⟩
    obtain ⟨x, hx, rfl, -, hcall⟩ := (h.execution_iff hrequest htask).1 ⟨hexecuted, hfor⟩
    obtain ⟨s₁, s₂, htakes⟩ := h.takes x hx
    exact ⟨x.1, h.mem_all hx, rfl, outcome, htakes.result_iff.2 ⟨call, hcall, hyields⟩⟩

/-- A place has a turn exactly if the executors of all tasks around it were called and yielded. -/
theorem exists_turn_iff (h : engine.Tour operation request s visits turns)
    (hrequest : (Json.obj request).Distinct) {j : Nat} {task : Task}
    (htask : (engine.catalog.plan request).tasks[j]? = some task) :
    (∃ x ∈ turns, x.1.stop.place = j ∧ x.1.stop.task = task) ↔
      ∀ i a, (engine.catalog.plan request).tasks[i]? = some a →
        Encloses (engine.catalog.plan request).tasks i j →
        ∃ call ∈ engine.executions operation request s,
          call.For a ∧ ∃ outcome, call.Yields outcome := by
  obtain ⟨final, s', hfollows⟩ := h.follows
  obtain ⟨p, hp, rfl, rfl⟩ := Catalog.getElem?_plan_iff.1 htask
  have hreaches : Visit.Reaches visits p.place ↔ ∀ x ∈ p.above, x ∈ [] ∨ Visit.Keeps visits x.1 :=
    hfollows.reaches_iff (by simp) hp
  -- turns are known by their places alone, for which reaching is told
  have hturn : (∃ x ∈ turns, x.1.stop.place = p.place ∧ x.1.stop.task = p.task) ↔
      Visit.Reaches visits p.place := by
    constructor
    · rintro ⟨x, hx, hplace, -⟩
      exact ⟨x.1, h.mem_all hx, hplace⟩
    · rintro ⟨visit, hmem, hplace⟩
      obtain ⟨turn, hx⟩ := h.exists_turn hmem
      have hplan := h.getElem?_plan hx
      simp only [hplace] at hplan
      exact ⟨_, hx, hplace, Option.some.inj (hplan.symm.trans htask)⟩
  rw [hturn, hreaches]
  constructor
  · intro hall i a ha hencloses
    obtain ⟨q, hq, rfl, hmem⟩ := Catalog.exists_of_encloses hrequest hp hencloses
    exact (h.keeps_iff hrequest ha).1 ((hall _ hmem).resolve_left List.not_mem_nil)
  · intro hall x hx
    obtain ⟨-, q, hq, rfl⟩ := Catalog.mem_above hp hx
    have hq' := Catalog.getElem?_plan_iff.2 ⟨q, hq, rfl, rfl⟩
    exact Or.inr ((h.keeps_iff hrequest hq').2
      (hall _ _ hq' ((Catalog.encloses_iff hrequest hq hp).2 hx)))

end Tour

end Engine

/-! ## The discipline -/

/-- One list for each element, each of at most what the element is mapped to, make up a part of the
mapped list. -/
theorem flatMap_sublist_map {α β : Type} {f : α → List β} {g : α → β} {xs : List α}
    (h : ∀ x ∈ xs, f x <+ [g x]) : xs.flatMap f <+ xs.map g := by
  induction xs with
  | nil => exact List.Sublist.refl _
  | cons x rest ih =>
    rw [List.flatMap_cons, List.map_cons, ← List.singleton_append]
    exact (h x (List.mem_cons_self ..)).append (ih fun y hy => h y (List.mem_cons_of_mem _ hy))

namespace Engine

/-- Which calls a run makes: of parsers and of executors, each told from the plan. -/
structure Disciplined (engine : Engine σ) (operation : Operation) (request : Record) (s : σ) :
    Prop where
  /-- That the calls are noted changes neither the result nor the state. -/
  faithful : (engine.run operation request).run s =
    Prod.map id Watched.state ((engine.watched.run operation request).run ⟨s, []⟩)
  /-- Executors are handed tasks of the plan, with nothing but their filters changed, in the order
  of the plan. -/
  ordered : (engine.executions operation request s).map (fun call => call.task.bare) <+
    (engine.catalog.plan request).tasks.map Task.bare
  /-- No task is handed out twice. -/
  once : ((engine.executions operation request s).map fun call => call.task.path.full).Nodup
  /-- A task is handed to its executor exactly if it has no error, every task around it was handed
  out and came back with something, its parser is registered and had arguments, and its executor
  is registered. -/
  executed_iff : ∀ {j : Nat} {task : Task}, (engine.catalog.plan request).tasks[j]? = some task →
    ((∃ call ∈ engine.executions operation request s, call.For task) ↔
      task.isFailed = false ∧
      (∀ i a, (engine.catalog.plan request).tasks[i]? = some a →
        Encloses (engine.catalog.plan request).tasks i j →
        ∃ call ∈ engine.executions operation request s,
          call.For a ∧ ∃ outcome, call.Yields outcome) ∧
      (engine.registry.parsers.get? task.parser).isSome ∧
      (∃ call ∈ engine.parses operation request s,
        call.For task ∧ ∃ arguments, call.Asks arguments) ∧
      (engine.registry.executors.get? task.executor).isSome)
  /-- Parsers are called for tasks of the plan, in its order. -/
  parses_ordered : (engine.parses operation request s).map ParserCall.task <+
    (engine.catalog.plan request).tasks
  /-- The parser of a task is called exactly if the task has no error, every task around it was
  handed out and came back with something, and the parser is registered. -/
  parsed_iff : ∀ {j : Nat} {task : Task}, (engine.catalog.plan request).tasks[j]? = some task →
    ((∃ call ∈ engine.parses operation request s, call.For task) ↔
      task.isFailed = false ∧
      (∀ i a, (engine.catalog.plan request).tasks[i]? = some a →
        Encloses (engine.catalog.plan request).tasks i j →
        ∃ call ∈ engine.executions operation request s,
          call.For a ∧ ∃ outcome, call.Yields outcome) ∧
      (engine.registry.parsers.get? task.parser).isSome)

/-- **The engine keeps discipline**: it calls the parsers and the executors it should, in the order
of the plan, and no others. -/
theorem disciplined (engine : Engine σ) (operation : Operation) {request : Record}
    (hrequest : (Json.obj request).Distinct) (s : σ) :
    engine.Disciplined operation request s := by
  obtain ⟨visits, turns, htour⟩ := engine.exists_tour operation request s
  have htasks : turns.map (fun x => x.1.stop.task) <+ (engine.catalog.plan request).tasks := by
    have hentries := htour.entries.map Prod.snd
    rw [List.map_map, List.map_map] at hentries
    rwa [← Catalog.map_entry_placedTasks]
  have hordered : (engine.executions operation request s).map (fun call => call.task.bare) <+
      (engine.catalog.plan request).tasks.map Task.bare := by
    rw [executions, htour.calls, List.filterMap_flatMap, List.map_flatMap]
    refine (flatMap_sublist_map fun x hx => ?_).trans (List.map_map ▸ htasks.map Task.bare)
    obtain ⟨s₁, s₂, htakes⟩ := htour.takes x hx
    exact htakes.executions
  refine ⟨engine.run_watched operation request ⟨s, []⟩, hordered, ?_, fun htask => ?_, ?_,
    fun htask => ?_⟩
  · have hpaths := hordered.map fun task => task.path.full
    rw [List.map_map, List.map_map] at hpaths
    exact (Catalog.nodup_full hrequest).sublist hpaths
  · rw [← htour.exists_turn_iff hrequest htask]
    constructor
    · rintro ⟨call, hexecuted, hfor⟩
      obtain ⟨x, hx, hplace, rfl, hcall⟩ :=
        (htour.execution_iff hrequest htask).1 ⟨hexecuted, hfor⟩
      obtain ⟨s₁, s₂, htakes⟩ := htour.takes x hx
      obtain ⟨⟨parse, arguments, hparse, hasks⟩, -, hexecutor⟩ := htakes.executor_iff.1 ⟨call, hcall⟩
      obtain ⟨hfailed, hparser⟩ := htakes.parser_iff.1 ⟨parse, hparse⟩
      obtain ⟨hmem, hparseFor⟩ := (htour.parse_iff hrequest htask).2 ⟨x, hx, hplace, rfl, hparse⟩
      exact ⟨hfailed, ⟨x, hx, hplace, rfl⟩, hparser, ⟨parse, hmem, hparseFor, arguments, hasks⟩,
        hexecutor⟩
    · rintro ⟨-, -, -, ⟨parse, hmem, hparseFor, arguments, hasks⟩, hexecutor⟩
      obtain ⟨x, hx, hplace, rfl, hparse⟩ := (htour.parse_iff hrequest htask).1 ⟨hmem, hparseFor⟩
      obtain ⟨s₁, s₂, htakes⟩ := htour.takes x hx
      obtain ⟨call, hcall⟩ := htakes.executor_iff.2
        ⟨⟨parse, arguments, hparse, hasks⟩, htour.exists_joined hx, hexecutor⟩
      obtain ⟨hexecuted, hfor⟩ :=
        (htour.execution_iff hrequest htask).2 ⟨x, hx, hplace, rfl, hcall⟩
      exact ⟨call, hexecuted, hfor⟩
  · rw [parses, htour.calls, List.filterMap_flatMap, List.map_flatMap]
    refine (flatMap_sublist_map fun x hx => ?_).trans htasks
    obtain ⟨s₁, s₂, htakes⟩ := htour.takes x hx
    exact htakes.parses
  · rw [← htour.exists_turn_iff hrequest htask]
    constructor
    · rintro ⟨parse, hmem, hfor⟩
      obtain ⟨x, hx, hplace, rfl, hparse⟩ := (htour.parse_iff hrequest htask).1 ⟨hmem, hfor⟩
      obtain ⟨s₁, s₂, htakes⟩ := htour.takes x hx
      obtain ⟨hfailed, hparser⟩ := htakes.parser_iff.1 ⟨parse, hparse⟩
      exact ⟨hfailed, ⟨x, hx, hplace, rfl⟩, hparser⟩
    · rintro ⟨hfailed, ⟨x, hx, hplace, rfl⟩, hparser⟩
      obtain ⟨s₁, s₂, htakes⟩ := htour.takes x hx
      obtain ⟨parse, hparse⟩ := htakes.parser_iff.2 ⟨hfailed, hparser⟩
      obtain ⟨hmem, hfor⟩ := (htour.parse_iff hrequest htask).2 ⟨x, hx, hplace, rfl, hparse⟩
      exact ⟨parse, hmem, hfor⟩

/-- No author is found, so the books nested in it are passed over; the node without model is not
handed out either. -/
theorem disciplined_library : (Json.obj Library.request).Distinct ∧
    ((ofCatalog Library.catalog).executions .query Library.request {}).map
        (fun call => call.task.path.full) =
      [["authors", "pagination"], ["authors", "pagination", "books"],
        ["authors", "pagination", "books", "author"], ["authors.pagination"]] ∧
    (ofCatalog Library.catalog).Disciplined .query Library.request {} := by
  have hdistinct : (Json.obj Library.request).Distinct := by
    simp [Library.request, Keyed.keys, Json.Distinct, Json.DistinctFields]
  exact ⟨hdistinct, by decide +kernel, disciplined (ofCatalog Library.catalog) .query hdistinct {}⟩

end Engine

end NestedQuery
