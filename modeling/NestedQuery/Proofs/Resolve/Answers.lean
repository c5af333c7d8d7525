import NestedQuery.Proofs.Resolve.Temporaries
import NestedQuery.Service
/-!
# Every key is answered

A reply has a key for each key of the request, in its order, and what
stands at the path of a task at the top is the final outcome of the
task. It is null exactly if the task lacks one, and there are few ways
to that (`Engine.Lacks`). Four of them are faults, and these are what is
reported behind the reports of the plan: one report for each task that
was reached and met a fault, in the order of the plan
(`Engine.answers_fully`).

Nothing is assumed of parsers and executors. All is told from the calls
that were made for a task and from what they returned.
-/

namespace NestedQuery

open scoped List

variable {σ : Type}

/-! ## Keys of the data tree -/

namespace Json

/-- A write under a new key puts the key behind the others. -/
theorem keys_writeInto {record : Record} {key : String} (hfresh : key ∉ Keyed.keys record)
    (rest : List String) (value : Json) :
    Keyed.keys (writeInto record (key :: rest) value) = Keyed.keys record ++ [key] := by
  have hwritten : (written? value rest none).isSome := by
    cases rest with
    | nil => rfl
    | cons next rest =>
      have hclear : Clear (next :: rest) [] := by cases rest <;> simp [Clear]
      rw [written?, Option.isSome_map]
      exact (writeBelow?_isSome_iff value (List.cons_ne_nil next rest) []).2 hclear
  obtain ⟨new, hnew⟩ := Option.isSome_iff_exists.1 hwritten
  have hnone : record.get? key = none := (Keyed.get?_eq_none_iff record key).2 hfresh
  rw [writeInto, writeBelow?_cons, hnone, hnew, Option.map_some, Option.getD_some, Keyed.keys_put,
    if_neg hfresh]

end Json

namespace Visit

/-- Visits under new keys, which are all different, put these behind the others in their order. -/
theorem keys_collected {visits : List Visit} {keys : List String}
    (hsegments : visits.map segment? = keys.map some) (hnodup : keys.Nodup) {record : Record}
    (hfresh : ∀ key ∈ keys, key ∉ Keyed.keys record) :
    ∃ collected, visits.foldl collectInto (.obj record) = .obj collected ∧
      Keyed.keys collected = Keyed.keys record ++ keys := by
  induction visits generalizing keys record with
  | nil =>
    obtain rfl : keys = [] := by simpa using hsegments.symm
    exact ⟨record, rfl, (List.append_nil _).symm⟩
  | cons visit rest ih =>
    obtain ⟨key, more, rfl⟩ : ∃ key more, keys = key :: more := by
      cases keys with
      | nil => cases hsegments
      | cons key more => exact ⟨key, more, rfl⟩
    obtain ⟨hsegment, hsegments⟩ := List.cons.inj hsegments
    obtain ⟨below, hpath⟩ := List.head?_eq_some_iff.1 hsegment
    obtain ⟨hkey, hmore⟩ := List.nodup_cons.1 hnodup
    obtain ⟨hnew, hfresh⟩ := List.forall_mem_cons.1 hfresh
    have hwrite := Json.keys_writeInto hnew below visit.final.toJson
    rw [← hpath] at hwrite
    have hothers : ∀ other ∈ more, other ∉ Keyed.keys
        (Json.writeInto record visit.stop.task.path.keys visit.final.toJson) := by
      intro other hother hmem
      rw [hwrite, List.mem_append, List.mem_singleton] at hmem
      rcases hmem with hmem | rfl
      · exact hfresh other hother hmem
      · exact hkey hother
    obtain ⟨collected, hcollected, hkeys⟩ := ih hsegments hmore hothers
    exact ⟨collected, hcollected, by rw [hkeys, hwrite, List.append_assoc]; rfl⟩

/-! ## Faults of visits -/

variable {visits : List Visit}

/-- The faults met are those of the visits that were left with one. -/
theorem mem_faultsOf_iff {stop : Stop} {fault : Fault} :
    (stop, fault) ∈ faultsOf visits ↔ .missed stop (some fault) ∈ all visits := by
  induction visits using forest_induction with
  | nil => simp [faultsOf, all]
  | missed other found rest ih =>
    rw [faultsOf, all, List.mem_append, List.mem_cons, ih]
    refine or_congr_left ?_
    cases found <;> simp [eq_comm]
  | kept other fetched nested rest ihnested ih =>
    rw [faultsOf, all, List.mem_append, List.mem_cons, List.mem_append, ihnested, ih]
    exact (or_iff_right (by simp)).symm

/-- A visit meets one fault at most, and faults come in the order of the visits. -/
theorem places_faultsOf : (faultsOf visits).map (fun x => x.1.place) <+
    (all visits).map fun visit => visit.stop.place := by
  induction visits using forest_induction with
  | nil => simp [faultsOf, all]
  | missed stop fault rest ih =>
    rw [faultsOf, all]
    cases fault with
    | none => exact ih.cons _
    | some fault => exact ih.cons_cons _
  | kept stop fetched nested rest ihnested ih =>
    rw [faultsOf, all, List.map_append, List.map_cons, List.map_append]
    exact (ihnested.append ih).cons _

end Visit

namespace Outcome

theorem toJson_eq_null_iff {outcome : Outcome} : outcome.toJson = .null ↔ outcome.isAbsent = true := by
  cases outcome <;> simp [toJson, isAbsent, Json.ofNat]

@[simp] theorem isAbsent_mapAt (f : Nat → Record → Record) (outcome : Outcome) :
    (outcome.mapAt f).isAbsent = outcome.isAbsent := by
  cases outcome <;> rfl

end Outcome

/-! ## Tasks without outcome -/

namespace Engine

/-- Why a task has no outcome, and the fault that it is reported for if it is one. It is told from
the calls that were made for the task. -/
inductive Lacks (engine : Engine σ) (task : Task) (parsed : ParserCall → Prop)
    (executed : ExecutorCall σ → Prop) : Option Fault → Prop where
  /-- The node did not resolve or did not compile, which the plan has reported. -/
  | failed : task.isFailed = true → Lacks engine task parsed executed none
  | noParser : task.isFailed = false → engine.registry.parsers.get? task.parser = none →
      Lacks engine task parsed executed (some (.missingParser task.parser))
  | refused {call : ParserCall} {fault : Fault} : parsed call → call.result = .error fault →
      Lacks engine task parsed executed (some fault)
  /-- There was nothing to fetch. -/
  | idle {call : ParserCall} : parsed call → call.result = .ok none →
      Lacks engine task parsed executed none
  | noExecutor {call : ParserCall} {arguments : Json} : parsed call → call.Asks arguments →
      engine.registry.executors.get? task.executor = none →
      Lacks engine task parsed executed (some (.missingExecutor task.executor))
  | broke {call : ExecutorCall σ} {fault : Fault} : executed call → call.result = .error fault →
      Lacks engine task parsed executed (some fault)
  /-- The executor came back with nothing. -/
  | absent {call : ExecutorCall σ} {outcome : Outcome} : executed call → call.result = .ok outcome →
      outcome.isAbsent = true → Lacks engine task parsed executed none

theorem settle_eq_error {result : Except Fault Outcome} {fault? : Option Fault} :
    settle result = .error fault? ↔ (∃ fault, result = .error fault ∧ some fault = fault?) ∨
      ∃ outcome, result = .ok outcome ∧ outcome.isAbsent = true ∧ none = fault? := by
  cases result with
  | error fault => simp [settle]
  | ok outcome => cases habsent : outcome.isAbsent <;> simp [settle, habsent]

/-- **A task is left without outcome exactly in these ways**, given that it can be joined. -/
theorem Takes.error_iff {engine : Engine σ} {context : Context} {task : Task} {s s' : σ}
    {turn : List (Call σ)} {result : Except (Option Fault) Outcome}
    (h : engine.Takes context task s turn result s')
    (hjoined : ∃ joined, task.joined context.cache = .ok joined) {fault? : Option Fault} :
    result = .error fault? ↔ engine.Lacks task (fun call => .parser call ∈ turn)
      (fun call => .executor call ∈ turn) fault? := by
  constructor
  · intro hresult
    cases h with
    | failed hfailed =>
      obtain rfl := Except.error.inj hresult
      exact .failed hfailed
    | noParser hfailed hparser =>
      obtain rfl := Except.error.inj hresult
      exact .noParser hfailed hparser
    | refused =>
      obtain rfl := Except.error.inj hresult
      exact .refused (List.mem_singleton_self _) rfl
    | idle =>
      obtain rfl := Except.error.inj hresult
      exact .idle (List.mem_singleton_self _) rfl
    | unjoined _ _ _ hfault =>
      obtain ⟨joined, hjoined⟩ := hjoined
      cases hfault.symm.trans hjoined
    | noExecutor _ _ _ _ hexecutor =>
      obtain rfl := Except.error.inj hresult
      exact .noExecutor (List.mem_singleton_self _) rfl hexecutor
    | executed =>
      rcases settle_eq_error.1 hresult with ⟨fault, hfault, rfl⟩ | ⟨outcome, hok, habsent, rfl⟩
      · exact .broke (List.mem_cons_of_mem _ (List.mem_singleton_self _)) hfault
      · exact .absent (List.mem_cons_of_mem _ (List.mem_singleton_self _)) hok habsent
  · intro hlacks
    cases hlacks <;> cases h <;> simp_all [ParserCall.Asks, settle]

/-! ## A run and its visits -/

variable {engine : Engine σ} {operation : Operation} {request : Record} {s s' : σ}
  {visits : List Visit} {final : Progress}

/-- A walk that was told along a forest is the walk of the list. -/
theorem Follows.walk_run {catalog : Catalog} {parent : Option Task} {branches : List Branch}
    {place : Nat} {progress progress' : Progress}
    (h : engine.Follows operation request branches place progress s visits progress' s')
    (hfits : Branch.Fits catalog parent branches) (tasks : List Task) :
    (engine.walk operation request place (Branch.tasksOf branches ++ tasks) progress).run s =
      (engine.walk operation request (place + (Branch.tasksOf branches).length) tasks
        progress').run s' := by
  induction h generalizing parent tasks with
  | nil => simp
  | @missed task nested rest place _ _ _ _ _ _ _ hattempt _ ih =>
    cases hfits with
    | node _ hcount _ hrest =>
      rw [Branch.tasksOf_node, List.cons_append, List.append_assoc, walk_run_error hattempt, hcount,
        List.drop_left, ih hrest, List.length_cons, List.length_append]
      congr 2
      omega
  | @kept task nested rest place _ _ _ _ _ _ _ _ _ _ hattempt _ _ ihnested ih =>
    cases hfits with
    | node _ _ hnested hrest =>
      rw [Branch.tasksOf_node, List.cons_append, List.append_assoc, walk_run_ok hattempt,
        ihnested hnested, ih hrest, List.length_cons, List.length_append]
      congr 2
      omega

/-- The outcomes of the tasks of a request, when all writes are carried out. -/
def outcomes (engine : Engine σ) (operation : Operation) (request : Record) (s : σ) : Slots :=
  ((engine.walk operation request 0 (engine.catalog.plan request).tasks
    (.start (engine.catalog.plan request))).run s).1.settled

/-- **What a run answers with is told from the visits made on it.** -/
theorem Follows.run_eq (h : engine.Follows operation request (engine.catalog.forest request) 0
      (.start (engine.catalog.plan request)) s visits final s') :
    (engine.run operation request).run s =
      (⟨visits.foldl Visit.collectInto (.obj []), final.errors⟩, s') ∧
    engine.outcomes operation request s = final.settled := by
  have hwalk := h.walk_run (engine.catalog.fits_forest request) []
  rw [List.append_nil, ← Catalog.plan_tasks, walk] at hwalk
  constructor
  · rw [run, resolve, StateT.run_bind, hwalk, ← h.collect_visits]
    rfl
  · rw [outcomes, hwalk]
    rfl

/-- Visits to tasks at the top are at the top. -/
theorem Follows.mem_of_top (h : engine.Follows operation request (engine.catalog.forest request) 0
      (.start (engine.catalog.plan request)) s visits final s') {visit : Visit}
    (hmem : visit ∈ Visit.all visits) (htop : visit.stop.task.isNested = false) :
    visit ∈ visits := by
  rcases Visit.mem_all_iff.1 hmem with hmem | ⟨host, hnests⟩
  · exact hmem
  · obtain ⟨-, hbelow⟩ := h.holds_of_nests (engine.catalog.fits_forest request) hnests
    rw [hbelow.isNested] at htop
    cases htop

/-- What is left of a visit in the end is null exactly if it was left without outcome. -/
theorem Takes.final_eq_null {context : Context} {task : Task} {turn : List (Call σ)} {visit : Visit}
    (h : engine.Takes context task s turn visit.result s') :
    visit.final.toJson = .null ↔ ∃ fault?, visit.result = .error fault? := by
  rw [Outcome.toJson_eq_null_iff]
  cases visit with
  | missed stop fault => exact iff_of_true (by simp [Visit.final, Outcome.isAbsent]) ⟨fault, rfl⟩
  | kept stop fetched nested =>
    obtain ⟨call, -, -, hpresent⟩ := h.result_iff.1 rfl
    rw [Visit.final_kept, Outcome.isAbsent_mapAt, hpresent]
    refine iff_of_false Bool.false_ne_true ?_
    rintro ⟨fault?, heq⟩
    cases heq

/-! ## Turns of tasks -/

/-- A task has no outcome in the answer to a request, told from all calls made for the request. -/
def Misses (engine : Engine σ) (operation : Operation) (request : Record) (s : σ) (task : Task) :
    Option Fault → Prop :=
  engine.Lacks task (fun call => call ∈ engine.parses operation request s ∧ call.For task)
    fun call => call ∈ engine.executions operation request s ∧ call.For task

/-- Executors were called for all tasks around a place, and came back with something. -/
def Arrives (engine : Engine σ) (operation : Operation) (request : Record) (s : σ) (place : Nat) :
    Prop :=
  ∀ i a, (engine.catalog.plan request).tasks[i]? = some a →
    Encloses (engine.catalog.plan request).tasks i place →
    ∃ call ∈ engine.executions operation request s, call.For a ∧ ∃ outcome, call.Yields outcome

namespace Tour

variable {turns : List (Visit × List (Call σ))}

/-- What holds of the calls on a turn of a task holds of those on its turn, as it has no other. -/
theorem exists_on_turn (h : engine.Tour operation request s visits turns)
    {x : Visit × List (Call σ)} (hx : x ∈ turns) {p : List (Call σ) → Prop} :
    (∃ y ∈ turns, y.1.stop.place = x.1.stop.place ∧ y.1.stop.task = x.1.stop.task ∧ p y.2) ↔
      p x.2 := by
  constructor
  · rintro ⟨y, hy, hplace, -, hcalls⟩
    exact h.eq_of_place hy hx hplace ▸ hcalls
  · exact fun hcalls => ⟨x, hx, rfl, rfl, hcalls⟩

/-- The calls made on the turn of a task tell as much of it as all calls do. -/
theorem misses_iff (h : engine.Tour operation request s visits turns)
    (hrequest : (Json.obj request).Distinct) {x : Visit × List (Call σ)} (hx : x ∈ turns)
    {fault? : Option Fault} :
    x.1.result = .error fault? ↔ engine.Misses operation request s x.1.stop.task fault? := by
  obtain ⟨s₁, s₂, htakes⟩ := h.takes x hx
  have htask := h.getElem?_plan hx
  have hparsed : (fun call => Call.parser call ∈ x.2) = fun call =>
      call ∈ engine.parses operation request s ∧ call.For x.1.stop.task := by
    funext call
    exact propext ((h.exists_on_turn hx).symm.trans (h.parse_iff hrequest htask).symm)
  have hexecuted : (fun call => Call.executor call ∈ x.2) = fun call =>
      call ∈ engine.executions operation request s ∧ call.For x.1.stop.task := by
    funext call
    exact propext ((h.exists_on_turn hx).symm.trans (h.execution_iff hrequest htask).symm)
  rw [htakes.error_iff (h.exists_joined hx), hparsed, hexecuted]
  rfl

/-- A task at the top has a turn. -/
theorem exists_top (h : engine.Tour operation request s visits turns)
    (hrequest : (Json.obj request).Distinct) {i : Nat} {task : Task}
    (htask : (engine.catalog.plan request).tasks[i]? = some task) (htop : task.isNested = false) :
    ∃ x ∈ turns, x.1.stop.place = i ∧ x.1.stop.task = task := by
  refine (h.exists_turn_iff hrequest htask).2 fun k a _ hencloses => ?_
  obtain ⟨q, hq, rfl, rfl⟩ := Catalog.getElem?_plan_iff.1 htask
  obtain ⟨p, -, -, habove⟩ := Catalog.exists_of_encloses hrequest hq hencloses
  have hnested := (Catalog.isNested_iff_above hq).2 (List.ne_nil_of_mem habove)
  rw [htop] at hnested
  cases hnested

/-- **The faults of a run**: one for each task that was reached and met one. -/
theorem mem_faultsOf_iff (h : engine.Tour operation request s visits turns)
    (hrequest : (Json.obj request).Distinct) {place : Nat} {task : Task} {fault : Fault} :
    (∃ stop, (stop, fault) ∈ Visit.faultsOf visits ∧ stop.place = place ∧ stop.task = task) ↔
      (engine.catalog.plan request).tasks[place]? = some task ∧
        engine.Arrives operation request s place ∧
        engine.Misses operation request s task (some fault) := by
  constructor
  · rintro ⟨stop, hmem, rfl, rfl⟩
    obtain ⟨turn, hx⟩ := h.exists_turn (Visit.mem_faultsOf_iff.1 hmem)
    have htask := h.getElem?_plan hx
    exact ⟨htask, (h.exists_turn_iff hrequest htask).1 ⟨_, hx, rfl, rfl⟩,
      (h.misses_iff hrequest hx).1 rfl⟩
  · rintro ⟨htask, harrives, hmisses⟩
    obtain ⟨⟨visit, turn⟩, hx, rfl, rfl⟩ := (h.exists_turn_iff hrequest htask).2 harrives
    have hresult := (h.misses_iff hrequest hx).2 hmisses
    cases visit with
    | missed stop fault? =>
      obtain rfl := Except.error.inj hresult
      exact ⟨stop, Visit.mem_faultsOf_iff.2 (h.mem_all hx), rfl, rfl⟩
    | kept stop fetched nested => cases hresult

/-- Turns come in the order of the plan. -/
theorem ascending (h : engine.Tour operation request s visits turns) :
    ((Visit.all visits).map fun visit => visit.stop.place).Pairwise (· < ·) := by
  have hplaces := h.entries.map Prod.fst
  rw [List.map_map, List.map_map] at hplaces
  have hvisits : turns.map (Prod.fst ∘ fun x => (x.1.stop.place, x.1.stop.task)) =
      (Visit.all visits).map fun visit => visit.stop.place := by
    rw [← h.visited, List.map_map]
    rfl
  have hrange : (engine.catalog.placedTasks request).map (Prod.fst ∘ Placed.entry) = _ :=
    Branch.map_place_placedOf
  rw [hvisits, hrange] at hplaces
  exact List.Pairwise.sublist hplaces List.pairwise_lt_range'

/-- What stands at the path of a task at the top is what is left of its visit. -/
theorem exists_value (h : engine.Tour operation request s visits turns)
    (hrequest : (Json.obj request).Distinct) {i : Nat} {task : Task}
    (htask : (engine.catalog.plan request).tasks[i]? = some task) (htop : task.isNested = false) :
    ∃ x ∈ turns, x.1.stop.task = task ∧
      (engine.outcomes operation request s).read i = x.1.final ∧
      (visits.foldl Visit.collectInto (.obj [])).at? task.path.keys = some x.1.final.toJson := by
  obtain ⟨final, s', hfollows⟩ := h.follows
  obtain ⟨x, hx, rfl, rfl⟩ := h.exists_top hrequest htask htop
  have hmem := hfollows.mem_of_top (h.mem_all hx) htop
  exact ⟨x, hx, rfl, hfollows.run_eq.2 ▸ hfollows.read_settled (Or.inl hmem),
    hfollows.at?_collected hrequest hmem⟩

/-- The slot of a task that was fetched holds what was fetched in the end, with nothing changed but
what is under the keys of the tasks nested in it. -/
theorem exists_grown (h : engine.Tour operation request s visits turns)
    (hrequest : (Json.obj request).Distinct) {i : Nat} {task : Task}
    (htask : (engine.catalog.plan request).tasks[i]? = some task) {call : ExecutorCall σ}
    (hcall : call ∈ engine.executions operation request s) (hfor : call.For task) {outcome : Outcome}
    (hyields : call.Yields outcome) :
    ∃ grown : Nat → Record → Record,
      (engine.outcomes operation request s).read i =
        outcome.mapAt (fun position row => grown position (task.finish row)) ∧
      ∀ key, (∀ child ∈ (engine.catalog.plan request).tasks,
          child.path.parentKeys = task.path.full → child.path.keys.head? ≠ some key) →
        ∀ position record, (grown position record).get? key = record.get? key := by
  obtain ⟨final, s', hfollows⟩ := h.follows
  obtain ⟨⟨visit, turn⟩, hx, rfl, rfl, hmem⟩ := (h.execution_iff hrequest htask).1 ⟨hcall, hfor⟩
  obtain ⟨s₁, s₂, htakes⟩ := h.takes _ hx
  have hresult := htakes.result_iff.2 ⟨call, hmem, hyields⟩
  have hoccurs := Visit.mem_all_iff.1 (h.mem_all hx)
  cases visit with
  | missed stop fault => cases hresult
  | kept stop fetched nested =>
    obtain rfl := Except.ok.inj hresult
    refine ⟨Visit.stitchAll (stop.host fetched) nested, ?_, fun key hkey position record => ?_⟩
    · rw [hfollows.run_eq.2]
      exact (hfollows.read_settled hoccurs).trans (Visit.final_kept stop fetched nested)
    · refine Visit.get?_stitchAll_ne (fun child hchild => ?_) record
      have hnests := Visit.nests_of_occurs hoccurs hchild
      obtain ⟨-, hbelow⟩ := hfollows.holds_of_nests (engine.catalog.fits_forest request) hnests
      exact hkey _ (List.mem_of_getElem? (hfollows.getElem?_plan (Or.inr ⟨_, hnests⟩)))
        hbelow.parentKeys

/-- The faults of a run, each with the place and the task that it was met at, come in the order of
the plan. -/
theorem faults_ordered (h : engine.Tour operation request s visits turns)
    (hrequest : (Json.obj request).Distinct) :
    (((Visit.faultsOf visits).map fun x => (x.1.place, x.1.task, x.2)).map Prod.fst).Pairwise (· < ·) ∧
    ∀ place task fault,
      (place, task, fault) ∈ (Visit.faultsOf visits).map (fun x => (x.1.place, x.1.task, x.2)) ↔
      (engine.catalog.plan request).tasks[place]? = some task ∧
        engine.Arrives operation request s place ∧
        engine.Misses operation request s task (some fault) := by
  constructor
  · rw [List.map_map]
    exact h.ascending.sublist Visit.places_faultsOf
  · intro place task fault
    rw [← h.mem_faultsOf_iff hrequest, List.mem_map]
    constructor
    · rintro ⟨⟨stop, found⟩, hmem, heq⟩
      obtain ⟨rfl, rfl, rfl⟩ : stop.place = place ∧ stop.task = task ∧ found = fault := by
        simpa using heq
      exact ⟨stop, hmem, rfl, rfl⟩
    · rintro ⟨stop, hmem, rfl, rfl⟩
      exact ⟨(stop, fault), hmem, rfl⟩

end Tour

/-! ## The answer -/

/-- An answer in which each key of the request has its value and each fault its report. -/
structure Answers (engine : Engine σ) (operation : Operation) (request : Record) (s : σ)
    (resolution : Resolution) : Prop where
  /-- For each key there is one task at the top, and the path of the task starts with the key. -/
  tops : ((engine.catalog.plan request).tasks.filter fun task => !task.isNested).map
    (fun task => task.path.keys.head?) = (Keyed.keys request).map some
  /-- The data has the keys of the request, in their order. -/
  keys : ∃ data, resolution.data = .obj data ∧ Keyed.keys data = Keyed.keys request
  /-- At the path of a task at the top stands what the slot of the task holds in the end. -/
  values : ∀ {i : Nat} {task : Task}, (engine.catalog.plan request).tasks[i]? = some task →
    task.isNested = false → resolution.data.at? task.path.keys =
      some ((engine.outcomes operation request s).read i).toJson
  /-- Which is null exactly if the task has no outcome. -/
  null_iff : ∀ {i : Nat} {task : Task}, (engine.catalog.plan request).tasks[i]? = some task →
    task.isNested = false → (resolution.data.at? task.path.keys = some .null ↔
      ∃ fault?, engine.Misses operation request s task fault?)
  /-- A slot holds in the end what was fetched for its task, each record in its final shape and with
  nothing changed but what is under the keys of the tasks nested in it. -/
  fetched : ∀ {i : Nat} {task : Task}, (engine.catalog.plan request).tasks[i]? = some task →
    ∀ call ∈ engine.executions operation request s, call.For task →
    ∀ outcome, call.Yields outcome → ∃ grown : Nat → Record → Record,
      (engine.outcomes operation request s).read i =
        outcome.mapAt (fun position row => grown position (task.finish row)) ∧
      ∀ key, (∀ child ∈ (engine.catalog.plan request).tasks,
          child.path.parentKeys = task.path.full → child.path.keys.head? ≠ some key) →
        ∀ position record, (grown position record).get? key = record.get? key
  /-- Behind the reports of the plan there is one for each task that was reached and met a fault,
  in the order of the plan. -/
  reports : ∃ faults : List (Nat × Task × Fault),
    resolution.errors = (engine.catalog.plan request).errors ++
      faults.map (fun x => x.2.1.path.text ++ ": " ++ x.2.2.message) ∧
    (faults.map Prod.fst).Pairwise (· < ·) ∧
    ∀ place task fault, (place, task, fault) ∈ faults ↔
      (engine.catalog.plan request).tasks[place]? = some task ∧
        engine.Arrives operation request s place ∧
        engine.Misses operation request s task (some fault)
  /-- The reply shows the data, and the reports if there are any. -/
  reply : ∃ shown, ((engine.answer operation (.obj request)).run s).1.toJson = .obj shown ∧
    Keyed.get? shown "data" = some resolution.data ∧
    Keyed.get? shown "errors" =
      if resolution.errors = [] then none else some (.ofTexts resolution.errors)

/-- **Every key is answered and every fault is reported**, whatever parsers and executors
return. -/
theorem answers_fully (engine : Engine σ) (operation : Operation) {request : Record}
    (hrequest : (Json.obj request).Distinct) (s : σ) :
    engine.Answers operation request s ((engine.run operation request).run s).1 := by
  obtain ⟨visits, turns, htour⟩ := engine.exists_tour operation request s
  obtain ⟨final, s', hfollows⟩ := htour.follows
  obtain ⟨hrun, -⟩ := hfollows.run_eq
  have hsegments := (engine.catalog.compiles_forest request).segments
  rw [hrun]
  refine ⟨?_, ?_, fun htask htop => ?_, fun htask htop => ?_,
    fun htask call hcall hfor outcome hyields => htour.exists_grown hrequest htask hcall hfor hyields,
    ?_, ?_⟩
  · rw [Catalog.plan_tasks, Branch.filter_tasksOf (engine.catalog.fits_forest request), List.map_map]
    exact hsegments
  · exact Visit.keys_collected (hfollows.segments.trans hsegments)
      ((Json.distinct_obj_iff request).1 hrequest).1 fun _ _ => List.not_mem_nil
  · obtain ⟨x, -, -, hread, hat⟩ := htour.exists_value hrequest htask htop
    rw [hread, hat]
  · obtain ⟨x, hx, rfl, -, hat⟩ := htour.exists_value hrequest htask htop
    obtain ⟨s₁, s₂, htakes⟩ := htour.takes x hx
    rw [hat, Option.some_inj, htakes.final_eq_null]
    exact exists_congr fun fault? => htour.misses_iff hrequest hx
  · refine ⟨(Visit.faultsOf visits).map fun x => (x.1.place, x.1.task, x.2), ?_,
      htour.faults_ordered hrequest⟩
    rw [List.map_map]
    exact hfollows.errors
  · have hanswer : ((engine.answer operation (.obj request)).run s).1 =
        .resolved ⟨visits.foldl Visit.collectInto (.obj []), final.errors⟩ := by
      rw [answer, StateT.run_bind, hrun]
      rfl
    rw [hanswer]
    refine ⟨_, rfl, rfl, ?_⟩
    cases final.errors <;> rfl

/-- Nobody is there to parse anything, so each key is answered by null; the node without model was
reported by the plan, before the others. -/
theorem answers_fully_library : (Json.obj Library.request).Distinct ∧
    (((⟨Library.catalog, {}⟩ : Engine Unit).run .query Library.request).run ()).1.errors =
      ["nobody: Unknown model: nobody",
        "authors.pagination: Parser not registered: default",
        "authors.pagination: Parser not registered: default"] ∧
    (⟨Library.catalog, {}⟩ : Engine Unit).Answers .query Library.request ()
      (((⟨Library.catalog, {}⟩ : Engine Unit).run .query Library.request).run ()).1 := by
  have hdistinct : (Json.obj Library.request).Distinct := by
    simp [Library.request, Keyed.keys, Json.Distinct, Json.DistinctFields]
  exact ⟨hdistinct, by decide +kernel,
    answers_fully (⟨Library.catalog, {}⟩ : Engine Unit) .query hdistinct ()⟩

end Engine

end NestedQuery
