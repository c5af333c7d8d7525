import NestedQuery.Proofs.Resolve.OwnParent
/-!
# The calls that an engine makes

What an engine asks of its parsers and executors can be seen from
outside. Give it parsers and executors that do what the registered ones
do and note each call (`Registry.watched`): the engine is the same, its
results are the same (`Engine.run_watched`), and behind them stands the
list of calls.

What one task leads to is said once, by `Engine.Takes`: the calls made
for it, what becomes of it, and the state left. Whoever wants to know
when a parser or an executor is called takes the cases of this relation.
What holds of each task, between the calls made for it and the state
before and after, holds of a run if it goes on from calls to more calls
(`Engine.run_chains`).
-/

namespace NestedQuery

variable {σ : Type}

/-! ## Watching -/

/-- A call of a parser: under which name, for which task, and what it returned. -/
structure ParserCall where
  id : String
  task : Task
  result : Except Fault (Option Json)

/-- A call of an executor: under which name, for which task and with which arguments, what it
returned, and the states before and after. -/
structure ExecutorCall (σ : Type) where
  id : String
  task : Task
  arguments : Json
  before : σ
  result : Except Fault Outcome
  after : σ

/-- A call that an engine makes. -/
inductive Call (σ : Type) where
  | parser (call : ParserCall)
  | executor (call : ExecutorCall σ)

namespace Call

/-- The call of a parser. -/
def parser? : Call σ → Option ParserCall
  | parser call => some call
  | executor _ => none

/-- The call of an executor. -/
def executor? : Call σ → Option (ExecutorCall σ)
  | parser _ => none
  | executor call => some call

theorem parser?_eq_some {call : Call σ} {parsed : ParserCall} :
    call.parser? = some parsed ↔ call = .parser parsed := by
  cases call <;> simp [parser?]

theorem executor?_eq_some {call : Call σ} {executed : ExecutorCall σ} :
    call.executor? = some executed ↔ call = .executor executed := by
  cases call <;> simp [executor?]

end Call

/-- A state, and the calls noted so far. -/
structure Watched (σ : Type) where
  state : σ
  calls : List (Call σ) := []

/-- A step that notes itself once it is done. -/
def Attempt.watched {α : Type} (note : σ → Except Fault α → σ → Call σ) (step : Attempt σ α) :
    Attempt (Watched σ) α :=
  ExceptT.mk do
    let before ← get
    let (result, after) := step.run.run before.state
    set (⟨after, before.calls ++ [note before.state result after]⟩ : Watched σ)
    return result

/-- A parser that notes its calls. -/
def Parser.watched (id : String) (parser : Parser σ) : Parser (Watched σ) := fun context task =>
  (parser context task).watched fun _ result _ => .parser ⟨id, task, result⟩

/-- An executor that notes its calls. -/
def Executor.watched (id : String) (executor : Executor σ) : Executor (Watched σ) :=
  fun context task arguments =>
    (executor context task arguments).watched fun before result after =>
      .executor ⟨id, task, arguments, before, result, after⟩

/-- A registry all of whose parsers and executors note their calls. -/
def Registry.watched (registry : Registry σ) : Registry (Watched σ) where
  parsers := registry.parsers.map fun (id, parser) => (id, parser.watched id)
  executors := registry.executors.map fun (id, executor) => (id, executor.watched id)

theorem Attempt.run_watched {α : Type} {note : σ → Except Fault α → σ → Call σ}
    {step : Attempt σ α} {w : Watched σ} {result : Except Fault α} {s' : σ}
    (h : step.run.run w.state = (result, s')) :
    (step.watched note).run.run w = (result, ⟨s', w.calls ++ [note w.state result s']⟩) := by
  obtain ⟨hresult, hs'⟩ := Prod.mk.inj (h.symm.trans (Prod.eta _).symm)
  rw [hresult, hs']
  rfl

theorem Keyed.get?_mapEntries {α β : Type} (f : String → α → β) (entries : Keyed α)
    (key : String) :
    Keyed.get? (entries.map fun (k, v) => (k, f k v)) key = (entries.get? key).map (f key) := by
  induction entries with
  | nil => rfl
  | cons entry rest ih =>
    rw [List.map_cons, Keyed.get?_cons, Keyed.get?_cons, ih]
    split
    · next heq => rw [Option.map_some, heq]
    · rfl

namespace Registry

theorem get?_parsers_watched (registry : Registry σ) (id : String) :
    registry.watched.parsers.get? id =
      (registry.parsers.get? id).map (Parser.watched id) :=
  Keyed.get?_mapEntries Parser.watched registry.parsers id

theorem get?_executors_watched (registry : Registry σ) (id : String) :
    registry.watched.executors.get? id =
      (registry.executors.get? id).map (Executor.watched id) :=
  Keyed.get?_mapEntries Executor.watched registry.executors id

end Registry

namespace Engine

/-- The engine with its registry watched. -/
def watched (engine : Engine σ) : Engine (Watched σ) := ⟨engine.catalog, engine.registry.watched⟩

@[simp] theorem catalog_watched (engine : Engine σ) : engine.watched.catalog = engine.catalog := rfl

/-- The calls that are made for a request, in order. -/
def calls (engine : Engine σ) (operation : Operation) (request : Record) (s : σ) : List (Call σ) :=
  ((engine.watched.run operation request).run ⟨s, []⟩).2.calls

/-- The calls of parsers. -/
def parses (engine : Engine σ) (operation : Operation) (request : Record) (s : σ) :
    List ParserCall :=
  (engine.calls operation request s).filterMap Call.parser?

/-- The calls of executors. -/
def executions (engine : Engine σ) (operation : Operation) (request : Record) (s : σ) :
    List (ExecutorCall σ) :=
  (engine.calls operation request s).filterMap Call.executor?

/-! ## What a task leads to -/

/-- What becomes of a task by what its executor returned. -/
def settle : Except Fault Outcome → Except (Option Fault) Outcome
  | .error fault => .error (some fault)
  | .ok outcome => if outcome.isAbsent then .error none else .ok outcome

/-- The calls that are made for a task in a state, what becomes of it, and the state left. -/
inductive Takes (engine : Engine σ) (context : Context) (task : Task) (s : σ) :
    List (Call σ) → Except (Option Fault) Outcome → σ → Prop where
  /-- A task with an error is left alone. -/
  | failed : task.isFailed = true → Takes engine context task s [] (.error none) s
  | noParser : task.isFailed = false → engine.registry.parsers.get? task.parser = none →
      Takes engine context task s [] (.error (some (.missingParser task.parser))) s
  | refused {parser : Parser σ} {fault : Fault} {s₁ : σ} : task.isFailed = false →
      engine.registry.parsers.get? task.parser = some parser →
      (parser context task).run.run s = (.error fault, s₁) →
      Takes engine context task s [.parser ⟨task.parser, task, .error fault⟩]
        (.error (some fault)) s₁
  /-- The parser found that there is nothing to fetch. -/
  | idle {parser : Parser σ} {s₁ : σ} : task.isFailed = false →
      engine.registry.parsers.get? task.parser = some parser →
      (parser context task).run.run s = (.ok none, s₁) →
      Takes engine context task s [.parser ⟨task.parser, task, .ok none⟩] (.error none) s₁
  | unjoined {parser : Parser σ} {arguments : Json} {fault : Fault} {s₁ : σ} :
      task.isFailed = false →
      engine.registry.parsers.get? task.parser = some parser →
      (parser context task).run.run s = (.ok (some arguments), s₁) →
      task.joined context.cache = .error fault →
      Takes engine context task s [.parser ⟨task.parser, task, .ok (some arguments)⟩]
        (.error (some fault)) s₁
  | noExecutor {parser : Parser σ} {arguments : Json} {joined : Task} {s₁ : σ} :
      task.isFailed = false →
      engine.registry.parsers.get? task.parser = some parser →
      (parser context task).run.run s = (.ok (some arguments), s₁) →
      task.joined context.cache = .ok joined →
      engine.registry.executors.get? task.executor = none →
      Takes engine context task s [.parser ⟨task.parser, task, .ok (some arguments)⟩]
        (.error (some (.missingExecutor task.executor))) s₁
  /-- The executor is given the task after the join constraint went into the filter. -/
  | executed {parser : Parser σ} {executor : Executor σ} {arguments : Json} {joined : Task}
      {result : Except Fault Outcome} {s₁ s₂ : σ} :
      task.isFailed = false →
      engine.registry.parsers.get? task.parser = some parser →
      (parser context task).run.run s = (.ok (some arguments), s₁) →
      task.joined context.cache = .ok joined →
      engine.registry.executors.get? task.executor = some executor →
      (executor context joined arguments).run.run s₁ = (result, s₂) →
      Takes engine context task s
        [.parser ⟨task.parser, task, .ok (some arguments)⟩,
          .executor ⟨task.executor, joined, arguments, s₁, result, s₂⟩]
        (settle result) s₂

variable {engine : Engine σ} {context : Context} {task : Task} {s s' : σ} {turn : List (Call σ)}
  {result : Except (Option Fault) Outcome}

/-- A task leads to something. -/
theorem exists_takes (engine : Engine σ) (context : Context) (task : Task) (s : σ) :
    ∃ turn result s', engine.Takes context task s turn result s' := by
  cases hfailed : task.isFailed with
  | true => exact ⟨_, _, _, .failed hfailed⟩
  | false =>
    cases hparser : engine.registry.parsers.get? task.parser with
    | none => exact ⟨_, _, _, .noParser hfailed hparser⟩
    | some parser =>
      cases hparse : (parser context task).run.run s with
      | mk parsed s₁ =>
        match parsed with
        | .error fault => exact ⟨_, _, _, .refused hfailed hparser hparse⟩
        | .ok none => exact ⟨_, _, _, .idle hfailed hparser hparse⟩
        | .ok (some arguments) =>
          cases hjoined : task.joined context.cache with
          | error fault => exact ⟨_, _, _, .unjoined hfailed hparser hparse hjoined⟩
          | ok joined =>
            cases hexecutor : engine.registry.executors.get? task.executor with
            | none => exact ⟨_, _, _, .noExecutor hfailed hparser hparse hjoined hexecutor⟩
            | some executor =>
              exact ⟨_, _, _, .executed hfailed hparser hparse hjoined hexecutor rfl⟩

/-- What a task leads to is what the engine does with it. -/
theorem Takes.attempt_run (h : engine.Takes context task s turn result s') :
    (engine.attempt context task).run s = (result, s') := by
  -- apart from a task with an error, all goes by what is fetched
  have hrun : ∀ fetched : Except Fault (Option Outcome), task.isFailed = false →
      (engine.fetch context task).run.run s = (fetched, s') →
      (engine.attempt context task).run s =
        ((fetched.mapError some).bind fun outcome? =>
          outcome?.elim (.error none) fun outcome => settle (.ok outcome), s') := by
    intro fetched hfailed hfetch
    rw [attempt, hfailed, if_neg Bool.false_ne_true, StateT.run_bind, hfetch]
    rcases fetched with fault | _ | outcome <;> rfl
  cases h with
  | failed hfailed =>
    rw [attempt, hfailed]
    rfl
  | noParser hfailed hparser =>
    refine hrun (.error _) hfailed ?_
    simp only [fetch, hparser]
    rfl
  | refused hfailed hparser hparse =>
    refine hrun (.error _) hfailed ?_
    simp only [fetch, hparser, Attempt.run_bind, hparse]
  | idle hfailed hparser hparse =>
    refine hrun (.ok none) hfailed ?_
    simp only [fetch, hparser, Attempt.run_bind, hparse]
    rfl
  | unjoined hfailed hparser hparse hjoined =>
    refine hrun (.error _) hfailed ?_
    simp only [fetch, hparser, Attempt.run_bind, hparse, hjoined]
    rfl
  | noExecutor hfailed hparser hparse hjoined hexecutor =>
    refine hrun (.error _) hfailed ?_
    simp only [fetch, hparser, Attempt.run_bind, hparse, hjoined, hexecutor]
    rfl
  | @executed _ executor arguments joined executed s₁ _ hfailed hparser hparse hjoined hexecutor
      hexecute =>
    have hjoin : (liftM (task.joined context.cache) : Attempt σ Task).run.run s₁ =
        (.ok joined, s₁) := by
      rw [hjoined]
      rfl
    refine (hrun (executed.map some) hfailed ?_).trans ?_
    · simp only [fetch, hparser, hexecutor, Attempt.run_bind, hparse, hjoin, hexecute]
      cases executed <;> rfl
    · cases executed <;> rfl

/-- A watched engine does with a task what the engine does, and notes the calls. -/
theorem Takes.watched {w : Watched σ} (h : engine.Takes context task w.state turn result s') :
    ∃ turn', engine.watched.Takes context task w turn' result ⟨s', w.calls ++ turn⟩ := by
  have hparsers : ∀ {parser : Parser σ}, engine.registry.parsers.get? task.parser = some parser →
      engine.watched.registry.parsers.get? task.parser = some (parser.watched task.parser) := by
    intro parser hparser
    exact (Registry.get?_parsers_watched ..).trans (congrArg (Option.map _) hparser)
  cases h with
  | failed hfailed =>
    rw [List.append_nil]
    exact ⟨_, .failed hfailed⟩
  | noParser hfailed hparser =>
    rw [List.append_nil]
    exact ⟨_, .noParser hfailed
      ((Registry.get?_parsers_watched ..).trans (congrArg (Option.map _) hparser))⟩
  | refused hfailed hparser hparse =>
    exact ⟨_, .refused hfailed (hparsers hparser) (Attempt.run_watched hparse)⟩
  | idle hfailed hparser hparse =>
    exact ⟨_, .idle hfailed (hparsers hparser) (Attempt.run_watched hparse)⟩
  | unjoined hfailed hparser hparse hjoined =>
    exact ⟨_, .unjoined hfailed (hparsers hparser) (Attempt.run_watched hparse) hjoined⟩
  | noExecutor hfailed hparser hparse hjoined hexecutor =>
    exact ⟨_, .noExecutor hfailed (hparsers hparser) (Attempt.run_watched hparse) hjoined
      ((Registry.get?_executors_watched ..).trans (congrArg (Option.map _) hexecutor))⟩
  | executed hfailed hparser hparse hjoined hexecutor hexecute =>
    rw [List.append_cons]
    exact ⟨_, .executed hfailed (hparsers hparser) (Attempt.run_watched hparse) hjoined
      ((Registry.get?_executors_watched ..).trans (congrArg (Option.map _) hexecutor))
      (Attempt.run_watched hexecute)⟩

/-- **Watching changes no task**: what a watched engine does with one is what the engine does, and
it notes the calls that this takes. -/
theorem takes_of_watched {w w' : Watched σ}
    (h : (engine.watched.attempt context task).run w = (result, w')) :
    ∃ turn, engine.Takes context task w.state turn result w'.state ∧
      w'.calls = w.calls ++ turn := by
  obtain ⟨turn, result', s', htakes⟩ := engine.exists_takes context task w.state
  obtain ⟨turn', hwatched⟩ := htakes.watched
  obtain ⟨rfl, rfl⟩ := Prod.mk.inj (h.symm.trans hwatched.attempt_run)
  exact ⟨turn, htakes, rfl⟩

/-- A task leads to one end only, with the same calls. -/
theorem Takes.unique {turn' : List (Call σ)} {result' : Except (Option Fault) Outcome} {s'' : σ}
    (h : engine.Takes context task s turn result s')
    (h' : engine.Takes context task s turn' result' s'') :
    turn' = turn ∧ result' = result ∧ s'' = s' := by
  -- a watched engine comes back with all three
  obtain ⟨_, hwatched⟩ := h.watched (w := ⟨s, []⟩)
  obtain ⟨_, hwatched'⟩ := h'.watched (w := ⟨s, []⟩)
  obtain ⟨hresult, hleft⟩ := Prod.mk.inj (hwatched'.attempt_run.symm.trans hwatched.attempt_run)
  obtain ⟨hstate, hcalls⟩ := Watched.mk.inj hleft
  exact ⟨hcalls, hresult, hstate⟩

/-! ## A whole request -/

variable {operation : Operation} {input : Record}

/-- Watching changes no walk. -/
theorem walk_watched (engine : Engine σ) (operation : Operation) (input : Record) (place : Nat)
    (tasks : List Task) (progress : Progress) (w : Watched σ) :
    (engine.walk operation input place tasks progress).run w.state =
      Prod.map id Watched.state
        ((engine.watched.walk operation input place tasks progress).run w) := by
  -- by the number of tasks left: a task without outcome is followed by what is not nested in it
  induction hlength : tasks.length using Nat.strongRecOn generalizing place tasks progress w with
  | ind length ih =>
    cases tasks with
    | nil =>
      rw [walk, walk]
      rfl
    | cons task rest =>
      rw [List.length_cons] at hlength
      cases hattempt : (engine.watched.attempt ⟨operation, engine.watched.catalog, input,
          (progress.enter task place).cache⟩ task).run w with
      | mk result w₁ =>
        obtain ⟨turn, htakes, -⟩ := takes_of_watched hattempt
        cases result with
        | error fault =>
          rw [walk_run_error hattempt, walk_run_error htakes.attempt_run]
          exact ih _ (by rw [List.length_drop]; omega) _ _ _ _ rfl
        | ok fetched =>
          rw [walk_run_ok hattempt, walk_run_ok htakes.attempt_run]
          exact ih _ (by omega) _ _ _ _ rfl

/-- **Watching changes nothing**: a watched engine comes to the same result and the same state. -/
theorem run_watched (engine : Engine σ) (operation : Operation) (request : Record)
    (w : Watched σ) :
    (engine.run operation request).run w.state =
      Prod.map id Watched.state ((engine.watched.run operation request).run w) := by
  rw [run, resolve, StateT.run_bind, walk_watched]
  rfl

end Engine

namespace Visit

/-- The visits in the order in which they were made. -/
def all : List Visit → List Visit
  | [] => []
  | .missed stop fault :: rest => .missed stop fault :: all rest
  | .kept stop fetched nested :: rest => .kept stop fetched nested :: (all nested ++ all rest)

/-- What became of the task. -/
def result : Visit → Except (Option Fault) Outcome
  | missed _ fault => .error fault
  | kept _ fetched _ => .ok fetched

end Visit

namespace Engine

variable {engine : Engine σ} {operation : Operation} {input : Record} {branches : List Branch}
  {place : Nat} {progress progress' : Progress} {w w' : Watched σ} {visits : List Visit}

/-- The calls of a walk are those made on its visits, one visit after the other. -/
theorem Follows.exists_turns
    (h : engine.watched.Follows operation input branches place progress w visits progress' w') :
    ∃ turns : List (Visit × List (Call σ)), turns.map Prod.fst = Visit.all visits ∧
      w'.calls = w.calls ++ turns.flatMap Prod.snd ∧
      ∀ x ∈ turns, ∃ s s',
        engine.Takes ⟨operation, engine.catalog, input, x.1.stop.progress.cache⟩ x.1.stop.task s x.2
          x.1.result s' := by
  induction h with
  | nil => exact ⟨[], by simp [Visit.all], by simp, by simp⟩
  | @missed task _ _ place progress _ _ _ _ fault visits hattempt _ ih =>
    obtain ⟨turn, htakes, hcalls⟩ := takes_of_watched hattempt
    obtain ⟨turns, hvisits, hrest, hall⟩ := ih
    refine ⟨(.missed ⟨task, place, progress.enter task place⟩ fault, turn) :: turns, ?_, ?_,
      List.forall_mem_cons.2 ⟨⟨_, _, htakes⟩, hall⟩⟩
    · rw [List.map_cons, hvisits, Visit.all]
    · rw [hrest, hcalls, List.flatMap_cons, List.append_assoc]
  | @kept task _ _ place progress _ _ _ _ _ _ fetched inner visits hattempt _ _ ihinner ih =>
    obtain ⟨turn, htakes, hcalls⟩ := takes_of_watched hattempt
    obtain ⟨turnsInner, hinner, hnested, hallInner⟩ := ihinner
    obtain ⟨turns, hvisits, hrest, hall⟩ := ih
    refine ⟨(.kept ⟨task, place, progress.enter task place⟩ fetched inner, turn) ::
      (turnsInner ++ turns), ?_, ?_, List.forall_mem_cons.2 ⟨⟨_, _, htakes⟩,
        List.forall_mem_append.2 ⟨hallInner, hall⟩⟩⟩
    · rw [List.map_cons, List.map_append, hinner, hvisits, Visit.all]
    · rw [hrest, hnested, hcalls, List.flatMap_cons, List.flatMap_append, List.append_assoc,
        List.append_assoc]

/-- The visits of a watched walk are those of the walk. -/
theorem Follows.of_watched
    (h : engine.watched.Follows operation input branches place progress w visits progress' w') :
    engine.Follows operation input branches place progress w.state visits progress' w'.state := by
  induction h with
  | nil => exact .nil
  | missed hattempt _ ih =>
    obtain ⟨_, htakes, -⟩ := takes_of_watched hattempt
    exact .missed htakes.attempt_run ih
  | kept hattempt _ _ ihinner ih =>
    obtain ⟨_, htakes, -⟩ := takes_of_watched hattempt
    exact .kept htakes.attempt_run ihinner ih

/-- And of each walk there is one that is watched. -/
theorem Follows.watched {s s' : σ}
    (h : engine.Follows operation input branches place progress s visits progress' s')
    (w : Watched σ) (hstate : w.state = s) :
    ∃ w', engine.watched.Follows operation input branches place progress w visits progress' w' ∧
      w'.state = s' := by
  induction h generalizing w with
  | nil => exact ⟨w, .nil, hstate⟩
  | missed hattempt _ ih =>
    obtain ⟨_, _, _, htakes⟩ := engine.exists_takes _ _ w.state
    obtain ⟨_, hwatched⟩ := htakes.watched
    obtain ⟨rfl, rfl⟩ := Prod.mk.inj ((hstate ▸ htakes.attempt_run).symm.trans hattempt)
    obtain ⟨w', hrest, hstate'⟩ := ih ⟨_, _⟩ rfl
    exact ⟨w', .missed hwatched.attempt_run hrest, hstate'⟩
  | kept hattempt _ _ ihinner ih =>
    obtain ⟨_, _, _, htakes⟩ := engine.exists_takes _ _ w.state
    obtain ⟨_, hwatched⟩ := htakes.watched
    obtain ⟨rfl, rfl⟩ := Prod.mk.inj ((hstate ▸ htakes.attempt_run).symm.trans hattempt)
    obtain ⟨w₁, hinner, hstate₁⟩ := ihinner ⟨_, _⟩ rfl
    obtain ⟨w', hrest, hstate'⟩ := ih w₁ hstate₁
    exact ⟨w', .kept hwatched.attempt_run hinner hrest, hstate'⟩

/-! ## What calls do to the state -/

/-- A relation between calls of executors and the states before and after them that holds of no
calls and goes on from calls to more calls. -/
structure Chains (Leads : List (ExecutorCall σ) → σ → σ → Prop) : Prop where
  refl : ∀ s, Leads [] s s
  trans : ∀ {calls more : List (ExecutorCall σ)} {s t u : σ},
    Leads calls s t → Leads more t u → Leads (calls ++ more) s u

variable {Leads : List (ExecutorCall σ) → σ → σ → Prop}

/-- What each task leads to, a walk leads to. -/
theorem Follows.chains (hchains : Chains Leads)
    (h : engine.watched.Follows operation input branches place progress w visits progress' w')
    (htasks : ∀ task ∈ Branch.tasksOf branches, ∀ {cache : JoinCache} {s s' : σ}
      {turn : List (Call σ)} {result : Except (Option Fault) Outcome},
      engine.Takes ⟨operation, engine.catalog, input, cache⟩ task s turn result s' →
      Leads (turn.filterMap Call.executor?) s s') :
    ∃ calls, w'.calls = w.calls ++ calls ∧
      Leads (calls.filterMap Call.executor?) w.state w'.state := by
  induction h with
  | nil => exact ⟨[], (List.append_nil _).symm, hchains.refl _⟩
  | missed hattempt _ ih =>
    simp only [Branch.tasksOf_node, List.mem_cons, List.mem_append] at htasks
    obtain ⟨turn, htakes, hturn⟩ := takes_of_watched hattempt
    obtain ⟨calls, hcalls, hrest⟩ := ih fun task hmem => htasks task (Or.inr (Or.inr hmem))
    refine ⟨turn ++ calls, by rw [hcalls, hturn, List.append_assoc], ?_⟩
    rw [List.filterMap_append]
    exact hchains.trans (htasks _ (Or.inl rfl) htakes) hrest
  | kept hattempt _ _ ihnested ih =>
    simp only [Branch.tasksOf_node, List.mem_cons, List.mem_append] at htasks
    obtain ⟨turn, htakes, hturn⟩ := takes_of_watched hattempt
    obtain ⟨inner, hinner, hnested⟩ := ihnested fun task hmem => htasks task (Or.inr (Or.inl hmem))
    obtain ⟨calls, hcalls, hrest⟩ := ih fun task hmem => htasks task (Or.inr (Or.inr hmem))
    refine ⟨turn ++ (inner ++ calls), ?_, ?_⟩
    · rw [hcalls, hinner, hturn, List.append_assoc, List.append_assoc]
    · rw [List.filterMap_append, List.filterMap_append]
      exact hchains.trans (htasks _ (Or.inl rfl) htakes) (hchains.trans hnested hrest)

/-- **What each task of a plan leads to, the run leads to.** -/
theorem run_chains (hchains : Chains Leads) (operation : Operation) (request : Record) (s : σ)
    (htasks : ∀ task ∈ (engine.catalog.plan request).tasks, ∀ {cache : JoinCache} {s s' : σ}
      {turn : List (Call σ)} {result : Except (Option Fault) Outcome},
      engine.Takes ⟨operation, engine.catalog, request, cache⟩ task s turn result s' →
      Leads (turn.filterMap Call.executor?) s s') :
    Leads (engine.executions operation request s) s ((engine.run operation request).run s).2 := by
  obtain ⟨visits, final, w', hfollows, hsettled⟩ :=
    run_settled engine.watched operation request ⟨s, []⟩
  have hrun : ((engine.watched.run operation request).run ⟨s, []⟩).2 = w' := by rw [hsettled]
  rw [Catalog.plan_tasks] at htasks
  obtain ⟨calls, hcalls, hleads⟩ := hfollows.chains hchains htasks
  have hwatched := congrArg Prod.snd (engine.run_watched operation request ⟨s, []⟩)
  rw [Prod.map_snd, hrun] at hwatched
  have hexecutions : engine.executions operation request s = calls.filterMap Call.executor? := by
    rw [executions, Engine.calls, hrun, hcalls]
    rfl
  rw [hexecutions, hwatched]
  exact hleads

end Engine

end NestedQuery
