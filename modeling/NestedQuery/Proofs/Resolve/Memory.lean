import NestedQuery.Proofs.Plan.Sound
import NestedQuery.Proofs.Resolve.Calls
import NestedQuery.Proofs.Resolve.Replay
/-!
# Queries to a store

A query that is served from memory leaves the store as it is, so what a
visit fetched can be told from the store alone: it is what the store
selects for the task, once the task is joined to its host
(`Store.Serves`). Every walk of a sound plan is of this kind
(`Engine.Follows.serves`), and it meets no fault.
-/

namespace NestedQuery

/-- A task with the constraint by which it joins to the host that it may have. -/
def Task.joinedTo (task : Task) (host? : Option Host) : Task :=
  match host? with
  | none => task
  | some host =>
    match task.link with
    | none => task
    | some link => task.constrain link.localKey (task.hostConstraint link host)

theorem Task.joinedTo_unlinked {task : Task} (h : task.link = none) (host? : Option Host) :
    task.joinedTo host? = task := by
  cases host? <;> simp only [joinedTo, h]

theorem Task.joinedTo_linked {task : Task} {link : Link} (h : task.link = some link) (host : Host) :
    task.joinedTo (some host) = task.constrain link.localKey (task.hostConstraint link host) := by
  simp only [joinedTo, h]

theorem Task.joinedTo_fields (task : Task) (host? : Option Host) :
    (task.joinedTo host?).fields = task.fields := by
  unfold joinedTo
  split
  · rfl
  · split <;> rfl

/-- Visits to the branches of a host, or to those at the top, that were served from a store. -/
inductive Store.Serves (store : Store) : Option Host → List Branch → List Visit → Prop where
  | nil {host? : Option Host} : Serves store host? [] []
  /-- The store has nothing for the task. -/
  | missed {host? : Option Host} {stop : Stop} {nested rest : List Branch} {visits : List Visit} :
      store.select (stop.task.joinedTo host?) = .absent → Serves store host? rest visits →
      Serves store host? (.node stop.task nested :: rest) (.missed stop none :: visits)
  /-- What is nested in the task is joined to what the store has for it. -/
  | kept {host? : Option Host} {stop : Stop} {fetched : Outcome} {nested rest : List Branch}
      {inner visits : List Visit} :
      store.select (stop.task.joinedTo host?) = fetched → fetched ≠ .absent →
      Serves store (some (stop.host fetched)) nested inner → Serves store host? rest visits →
      Serves store host? (.node stop.task nested :: rest) (.kept stop fetched inner :: visits)

/-- A task that is passed on as it is and served from memory. -/
structure Task.InMemory (task : Task) : Prop where
  parser : task.parser = "default"
  executor : task.executor = "memory"
  errors : task.errors = []

/-- The models of a catalog are all in memory. -/
def Catalog.InMemory (catalog : Catalog) : Prop :=
  ∀ model ∈ catalog.models, model.parser = "default" ∧ model.executor = "memory"

theorem Task.Sound.inMemory {catalog : Catalog} {task : Task} (h : task.Sound catalog)
    (hmemory : catalog.InMemory) : task.InMemory := by
  obtain ⟨model, hmodel, -, hparser, hexecutor⟩ := h.served
  obtain ⟨hdefault, hmemory⟩ := hmemory model hmodel
  exact ⟨hparser.trans hdefault, hexecutor.trans hmemory, h.errors⟩

namespace Engine

/-- **One task, served from memory.** It is handed to the store as it is joined. -/
theorem takes_memory {catalog : Catalog} {operation : Operation} {input : Record}
    {cache : JoinCache} {task joined : Task} {store after : Store} {result : Except Fault Outcome}
    (hmemory : task.InMemory) (hjoined : task.joined cache = .ok joined)
    (hexecute : (Store.execute operation joined).run.run store = (result, after)) :
    (ofCatalog catalog).Takes ⟨operation, (ofCatalog catalog).catalog, input, cache⟩ task store
      [.parser ⟨task.parser, task, .ok (some task.toJson)⟩,
        .executor ⟨task.executor, joined, task.toJson, store, result, after⟩]
      (settle result) after := by
  have hfailed : task.isFailed = false := by simp [Task.isFailed, hmemory.errors]
  have hparser : (ofCatalog catalog).registry.parsers.get? task.parser =
      some Registry.defaultParser := by
    rw [get?_parsers_ofCatalog, hmemory.parser, if_pos rfl]
  have hexecutor : (ofCatalog catalog).registry.executors.get? task.executor =
      some Store.executor := by
    rw [get?_executors_ofCatalog, hmemory.executor, if_pos rfl]
  exact .executed hfailed hparser rfl hjoined hexecutor hexecute

/-- So it comes to what the store makes of it. -/
theorem attempt_memory {catalog : Catalog} {operation : Operation} {input : Record}
    {cache : JoinCache} {task joined : Task} {store after : Store} {result : Except Fault Outcome}
    (hmemory : task.InMemory) (hjoined : task.joined cache = .ok joined)
    (hexecute : (Store.execute operation joined).run.run store = (result, after)) :
    ((ofCatalog catalog).attempt ⟨operation, (ofCatalog catalog).catalog, input, cache⟩ task).run
      store = (settle result, after) :=
  (takes_memory hmemory hjoined hexecute).attempt_run

/-- In a query the outcome is what the store selects, and the store stays as it is. -/
theorem attempt_query {catalog : Catalog} {input : Record} {cache : JoinCache} {task joined : Task}
    {store : Store} (hmemory : task.InMemory) (hjoined : task.joined cache = .ok joined) :
    ((ofCatalog catalog).attempt ⟨.query, (ofCatalog catalog).catalog, input, cache⟩ task).run store =
      (if (store.select joined).isAbsent then .error none else .ok (store.select joined), store) := by
  have hexecute : (Store.execute .query joined).run.run store = (.ok (store.select joined), store) :=
    rfl
  exact attempt_memory hmemory hjoined hexecute

section

variable {catalog : Catalog} {input : Record} {cache : JoinCache} {task joined : Task}
  {store store' : Store}

theorem attempt_query_ok (hmemory : task.InMemory) (hjoined : task.joined cache = .ok joined)
    {fetched : Outcome}
    (h : ((ofCatalog catalog).attempt ⟨.query, (ofCatalog catalog).catalog, input, cache⟩ task).run
      store = (.ok fetched, store')) :
    store' = store ∧ store.select joined = fetched ∧ fetched ≠ .absent := by
  rw [attempt_query hmemory hjoined] at h
  obtain ⟨hresult, rfl⟩ := Prod.mk.inj h
  split at hresult
  · cases hresult
  · next habsent =>
    obtain rfl := Except.ok.inj hresult
    exact ⟨rfl, rfl, fun heq => habsent (by rw [heq]; rfl)⟩

theorem attempt_query_error (hmemory : task.InMemory) (hjoined : task.joined cache = .ok joined)
    {fault : Option Fault}
    (h : ((ofCatalog catalog).attempt ⟨.query, (ofCatalog catalog).catalog, input, cache⟩ task).run
      store = (.error fault, store')) :
    store' = store ∧ store.select joined = .absent ∧ fault = none := by
  rw [attempt_query hmemory hjoined] at h
  obtain ⟨hresult, rfl⟩ := Prod.mk.inj h
  split at hresult
  · next habsent =>
    obtain rfl := Except.error.inj hresult
    refine ⟨rfl, ?_, rfl⟩
    cases hselect : store.select joined with
    | absent => rfl
    | _ => rw [hselect] at habsent; cases habsent
  · cases hresult

end

namespace Follows

variable {catalog : Catalog} {input : Record} {branches : List Branch} {place : Nat}
  {progress progress' : Progress} {store store' : Store} {visits : List Visit}

/-- The join of a task to the host that it may have. -/
theorem joined_eq {task : Task} {host? : Option Host}
    (hbelow : task.Below catalog (host?.map Host.task))
    (hhost : ∀ host ∈ host?, progress.Holds host) :
    task.joined progress.cache = .ok (task.joinedTo host?) := by
  cases host? with
  | none =>
    have hlink : task.link = none := hbelow.link
    rw [Task.joined, hlink]
    rfl
  | some host =>
    obtain ⟨link, hlink, -, hcolumn, -⟩ := hbelow.link
    have hjoins : Visit.JoinsTo (.missed ⟨task, 0, progress⟩ none) host link :=
      Visit.joinsTo_of_holds (hhost host rfl) hbelow hlink hcolumn
    rw [Task.joinedTo_linked hlink]
    exact hjoins.joined

/-- **A walk that is served from memory** leaves the store as it is, and each of its visits fetched
what the store selects. -/
theorem serves
    (h : (ofCatalog catalog).Follows .query input branches place progress store visits progress'
      store')
    (host? : Option Host) (hfits : Branch.Fits catalog (host?.map Host.task) branches)
    (hhost : ∀ host ∈ host?, ∀ visit ∈ visits, visit.stop.progress.Holds host)
    (hmemory : ∀ task ∈ Branch.tasksOf branches, task.InMemory) :
    store' = store ∧ store.Serves host? branches visits := by
  induction h generalizing host? with
  | nil => exact ⟨rfl, .nil⟩
  | @missed task nested rest place progress _ s s₁ s' fault visits hattempt _ ih =>
    simp only [Branch.tasksOf_node, List.mem_cons, List.mem_append] at hmemory
    cases hfits with
    | node hbelow _ _ hrest =>
      have hjoined : task.joined (progress.enter task place).cache = .ok (task.joinedTo host?) :=
        joined_eq hbelow fun host hmem => hhost host hmem _ (List.mem_cons_self ..)
      obtain ⟨rfl, habsent, rfl⟩ := attempt_query_error (hmemory task (Or.inl rfl)) hjoined hattempt
      obtain ⟨rfl, hserves⟩ := ih host? hrest
        (fun host hmem visit hvisit => hhost host hmem visit (List.mem_cons_of_mem _ hvisit))
        fun t ht => hmemory t (Or.inr (Or.inr ht))
      have hmissed : s'.Serves host? (.node (Stop.task ⟨task, place, progress.enter task place⟩)
          nested :: rest) _ := .missed habsent hserves
      exact ⟨rfl, hmissed⟩
  | @kept task nested rest place progress _ _ s s₁ s₂ s' fetched inner visits hattempt hinner _
      ihnested ih =>
    simp only [Branch.tasksOf_node, List.mem_cons, List.mem_append] at hmemory
    cases hfits with
    | node hbelow _ hnested hrest =>
      have hjoined : task.joined (progress.enter task place).cache = .ok (task.joinedTo host?) :=
        joined_eq hbelow fun host hmem => hhost host hmem _ (List.mem_cons_self ..)
      obtain ⟨rfl, hselect, hpresent⟩ := attempt_query_ok (hmemory task (Or.inl rfl)) hjoined hattempt
      obtain ⟨rfl, hservesInner⟩ := ihnested (some ⟨task, place, fetched⟩) hnested
        (fun host hmem visit hvisit => by
          obtain rfl := Option.some.inj hmem
          exact (hinner.holds_of_mem hnested hbelow.keys (Progress.holds_keep ..) hvisit).1)
        fun t ht => hmemory t (Or.inr (Or.inl ht))
      obtain ⟨rfl, hserves⟩ := ih host? hrest
        (fun host hmem visit hvisit => hhost host hmem visit (List.mem_cons_of_mem _ hvisit))
        fun t ht => hmemory t (Or.inr (Or.inr ht))
      have hkept : s'.Serves host? (.node (Stop.task ⟨task, place, progress.enter task place⟩)
          nested :: rest) _ := .kept hselect hpresent hservesInner hserves
      exact ⟨rfl, hkept⟩

end Follows

end Engine

/-- Nothing that was served from a store is a fault. -/
theorem Store.Serves.faultsOf {store : Store} {host? : Option Host} {branches : List Branch}
    {visits : List Visit} (h : store.Serves host? branches visits) : Visit.faultsOf visits = [] := by
  induction h with
  | nil => rw [Visit.faultsOf]
  | missed _ _ ih =>
    rw [Visit.faultsOf, ih]
    rfl
  | kept _ _ _ _ ihinner ih =>
    rw [Visit.faultsOf, ihinner, ih]
    rfl

end NestedQuery
