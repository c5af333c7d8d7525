import NestedQuery.Proofs.Resolve.Agreement
import NestedQuery.Proofs.Resolve.Ranked
/-!
# The branches of a request are isolated

All branches of a request share one cache, one list of slots, one list
of writes and one data tree, and what they keep there goes by dotted
texts that two branches may have in common. Still a branch does not
notice the others, as long as nobody it calls looks at more than its
task and nobody changes the state (`Registry.Steady`): what is under its
key, and what it reports, is what a request for it alone would give, out
of the same calls.

So a store has the same to sort for a request as for its nodes alone. A
sort that gives up would end the run, and with it all branches; what is
ranked by its columns is sorted without that, and then the branches are
isolated (`Engine.isolated`). In which order other rows come out makes no
difference, as `Engine.isolated_of_steady` holds of any executor that
goes by its task and the rows.

Two walks through one forest are followed side by side. They may stand
at different places and have different progress behind them; a task
joins to its own host in both, so the same is fetched for it, and the
visits are alike (`Engine.Follows.alike`). What a visit leaves in the
end, and what it reports, is the same for visits that are alike.
-/

namespace NestedQuery

variable {σ : Type}

/-! ## Steady registries -/

/-- For an operation, no parser or executor changes the state, and none goes by more than its task,
the catalog and the state: what else is known of the request makes no difference. -/
structure Registry.Steady (registry : Registry σ) (operation : Operation) : Prop where
  parsers : ∀ {id : String} {parser : Parser σ}, registry.parsers.get? id = some parser →
    ∀ {context context' : Context}, context.operation = operation →
      context'.operation = operation → context.catalog = context'.catalog → ∀ (task : Task) (s : σ),
      ∃ result, (parser context task).run.run s = (result, s) ∧
        (parser context' task).run.run s = (result, s)
  executors : ∀ {id : String} {executor : Executor σ}, registry.executors.get? id = some executor →
    ∀ {context context' : Context}, context.operation = operation →
      context'.operation = operation → context.catalog = context'.catalog →
      ∀ (task : Task) (arguments : Json) (s : σ),
      ∃ result, (executor context task arguments).run.run s = (result, s) ∧
        (executor context' task arguments).run.run s = (result, s)

namespace Engine

/-- **Queries, counts and updates leave a store alone**, and its executor goes by the task. -/
theorem steady_ofCatalog (catalog : Catalog) {operation : Operation}
    (hoperation : operation ∈ [.query, .count, .update]) :
    (ofCatalog catalog).registry.Steady operation := by
  constructor
  · intro id parser hparser context context' _ _ _ task s
    rw [get?_parsers_ofCatalog] at hparser
    split at hparser
    · obtain rfl := Option.some.inj hparser
      exact ⟨_, rfl, rfl⟩
    · cases hparser
  · intro id executor hexecutor context context' hcontext hcontext' _ task arguments s
    rw [get?_executors_ofCatalog] at hexecutor
    split at hexecutor
    · obtain rfl := Option.some.inj hexecutor
      simp only [Store.executor, hcontext, hcontext']
      rcases List.mem_cons.1 hoperation with rfl | hoperation
      · exact ⟨_, rfl, rfl⟩
      · rcases List.mem_pair.1 hoperation with rfl | rfl <;> exact ⟨_, rfl, rfl⟩
    · split at hexecutor
      · obtain rfl := Option.some.inj hexecutor
        exact ⟨_, rfl, rfl⟩
      · cases hexecutor

section

variable {engine : Engine σ} {operation : Operation} {context context' : Context} {task : Task}
  {s s₁ s₂ : σ} {result result' : Except (Option Fault) Outcome}

/-- What a steady parser said in one context it says in another, and the state stays. -/
theorem parse_steady (hsteady : engine.registry.Steady operation)
    (hcontext : context.operation = operation) (hcontext' : context'.operation = operation)
    (hcatalog : context.catalog = context'.catalog) {parser : Parser σ}
    (hparser : engine.registry.parsers.get? task.parser = some parser)
    {parsed : Except Fault (Option Json)} (hparse : (parser context task).run.run s = (parsed, s₁)) :
    s₁ = s ∧ (parser context' task).run.run s = (parsed, s) := by
  obtain ⟨said, hrun, hrun'⟩ := hsteady.parsers hparser hcontext hcontext' hcatalog task s
  obtain ⟨rfl, rfl⟩ := Prod.mk.inj (hrun.symm.trans hparse)
  exact ⟨rfl, hrun'⟩

/-- What a task leads to in one context it leads to in another one where it joins alike, and the
state stays. -/
theorem takes_steady {turn : List (Call σ)} (hsteady : engine.registry.Steady operation)
    (hcontext : context.operation = operation) (hcontext' : context'.operation = operation)
    (hcatalog : context.catalog = context'.catalog)
    (hjoined : task.joined context.cache = task.joined context'.cache)
    (h : engine.Takes context task s turn result s₁) :
    s₁ = s ∧ engine.Takes context' task s turn result s := by
  cases h with
  | failed hfailed => exact ⟨rfl, .failed hfailed⟩
  | noParser hfailed hparser => exact ⟨rfl, .noParser hfailed hparser⟩
  | refused hfailed hparser hparse =>
    obtain ⟨rfl, hparse'⟩ := parse_steady hsteady hcontext hcontext' hcatalog hparser hparse
    exact ⟨rfl, .refused hfailed hparser hparse'⟩
  | idle hfailed hparser hparse =>
    obtain ⟨rfl, hparse'⟩ := parse_steady hsteady hcontext hcontext' hcatalog hparser hparse
    exact ⟨rfl, .idle hfailed hparser hparse'⟩
  | unjoined hfailed hparser hparse hjoin =>
    obtain ⟨rfl, hparse'⟩ := parse_steady hsteady hcontext hcontext' hcatalog hparser hparse
    exact ⟨rfl, .unjoined hfailed hparser hparse' (hjoined.symm.trans hjoin)⟩
  | noExecutor hfailed hparser hparse hjoin hexecutor =>
    obtain ⟨rfl, hparse'⟩ := parse_steady hsteady hcontext hcontext' hcatalog hparser hparse
    exact ⟨rfl, .noExecutor hfailed hparser hparse' (hjoined.symm.trans hjoin) hexecutor⟩
  | @executed _ _ arguments joined _ _ _ hfailed hparser hparse hjoin hexecutor hexecute =>
    obtain ⟨rfl, hparse'⟩ := parse_steady hsteady hcontext hcontext' hcatalog hparser hparse
    obtain ⟨_, hdone, hdone'⟩ :=
      hsteady.executors hexecutor hcontext hcontext' hcatalog joined arguments _
    obtain ⟨rfl, rfl⟩ := Prod.mk.inj (hdone.symm.trans hexecute)
    exact ⟨rfl, .executed hfailed hparser hparse' (hjoined.symm.trans hjoin) hexecutor hdone'⟩

/-- **A task that joins alike comes out alike**, whatever the cache was, and the state stays. -/
theorem attempt_steady (hsteady : engine.registry.Steady operation)
    (hcontext : context.operation = operation) (hcontext' : context'.operation = operation)
    (hcatalog : context.catalog = context'.catalog)
    (hjoined : task.joined context.cache = task.joined context'.cache)
    (h : (engine.attempt context task).run s = (result, s₁))
    (h' : (engine.attempt context' task).run s = (result', s₂)) :
    result = result' ∧ s₁ = s ∧ s₂ = s := by
  obtain ⟨turn, found, left, htakes⟩ := engine.exists_takes context task s
  obtain ⟨rfl, rfl⟩ := Prod.mk.inj (h.symm.trans htakes.attempt_run)
  obtain ⟨rfl, htakes'⟩ := takes_steady hsteady hcontext hcontext' hcatalog hjoined htakes
  obtain ⟨rfl, rfl⟩ := Prod.mk.inj (h'.symm.trans htakes'.attempt_run)
  exact ⟨rfl, rfl, rfl⟩

/-- And it comes out of the same calls. -/
theorem attempt_watched_steady (hsteady : engine.registry.Steady operation)
    (hcontext : context.operation = operation) (hcontext' : context'.operation = operation)
    (hcatalog : context.catalog = context'.catalog)
    (hjoined : task.joined context.cache = task.joined context'.cache) {w w' w₁ w₂ : Watched σ}
    (hstate : w'.state = w.state)
    (h : (engine.watched.attempt context task).run w = (result, w₁))
    (h' : (engine.watched.attempt context' task).run w' = (result', w₂)) :
    result = result' ∧ w₁.state = w.state ∧ w₂.state = w.state ∧
      ∃ turn, w₁.calls = w.calls ++ turn ∧ w₂.calls = w'.calls ++ turn := by
  obtain ⟨turn, htakes, hcalls⟩ := takes_of_watched h
  obtain ⟨turn', htakes', hcalls'⟩ := takes_of_watched h'
  obtain ⟨hleft, hother⟩ := takes_steady hsteady hcontext hcontext' hcatalog hjoined htakes
  obtain ⟨rfl, rfl, hleft'⟩ := hother.unique (hstate ▸ htakes')
  exact ⟨rfl, hleft, hleft', _, hcalls, hcalls'⟩

end

end Engine

/-! ## Hosts that are joined to alike -/

/-- Two hosts, or none twice, have the same keys in every column that both index. -/
def Host.Agree (host? host?' : Option Host) : Prop :=
  ∀ column, (∀ host ∈ host?, column ∈ host.task.joinColumns) →
    (∀ host ∈ host?', column ∈ host.task.joinColumns) →
      host?.map (fun host => JoinIndex.ofOutcome host.fetched column) =
        host?'.map fun host => .ofOutcome host.fetched column

/-- Branches fit below a host, or at the top, and the visits to them find what the host left
behind. -/
structure Host.Receives (catalog : Catalog) (host? : Option Host) (branches : List Branch)
    (visits : List Visit) : Prop where
  fits : Branch.Fits catalog (host?.map Host.task) branches
  holds : ∀ host ∈ host?, ∀ visit ∈ visits, visit.stop.progress.Holds host

namespace Host

variable {catalog : Catalog} {host? : Option Host} {task : Task} {nested rest : List Branch}
  {visit : Visit} {visits : List Visit}

theorem agree_none : Agree none none := fun _ _ _ => rfl

theorem Agree.symm {host? host?' : Option Host} (h : Agree host? host?') : Agree host?' host? :=
  fun column hcolumn hcolumn' => (h column hcolumn' hcolumn).symm

theorem agree_of_fetched {host host' : Host} (h : host.fetched = host'.fetched) :
    Agree (some host) (some host') := fun column _ _ => by
  rw [Option.map_some, Option.map_some, h]

theorem Receives.top {branches : List Branch} (h : Branch.Fits catalog none branches) :
    Receives catalog none branches visits :=
  ⟨h, fun _ hmem => nomatch hmem⟩

theorem Receives.head (h : Receives catalog host? (.node task nested :: rest) (visit :: visits)) :
    task.Below catalog (host?.map Host.task) ∧ ∀ host ∈ host?, visit.stop.progress.Holds host := by
  refine ⟨?_, fun host hmem => h.holds host hmem visit (List.mem_cons_self ..)⟩
  cases h.fits with
  | node hbelow _ _ _ => exact hbelow

theorem Receives.fitsNested (h : Receives catalog host? (.node task nested :: rest) visits) :
    Branch.Fits catalog (some task) nested := by
  cases h.fits with
  | node _ _ hnested _ => exact hnested

theorem Receives.tail (h : Receives catalog host? (.node task nested :: rest) (visit :: visits)) :
    Receives catalog host? rest visits := by
  refine ⟨?_, fun host hmem other hother => h.holds host hmem other (List.mem_cons_of_mem _ hother)⟩
  cases h.fits with
  | node _ _ _ hrest => exact hrest

end Host

/-- Tasks with one link, below either of two hosts that agree, find the same index. -/
theorem Host.Agree.index_eq {catalog : Catalog} {task task' : Task} {host? host?' : Option Host}
    (hagree : Host.Agree host? host?') (h : task.Below catalog (host?.map Host.task))
    (h' : task'.Below catalog (host?'.map Host.task)) (hsame : task'.link = task.link) {link : Link}
    (hlink : task.link = some link) :
    ∃ host host', host? = some host ∧ host?' = some host' ∧
      JoinIndex.ofOutcome host.fetched link.referencedKey =
        .ofOutcome host'.fetched link.referencedKey := by
  cases host? with
  | none => exact absurd (hlink.symm.trans h.link) (Option.some_ne_none link)
  | some host =>
    cases host?' with
    | none => exact absurd ((hsame.trans hlink).symm.trans h'.link) (Option.some_ne_none link)
    | some host' =>
      obtain ⟨l, hl, -, hcolumn, -⟩ := h.link
      obtain ⟨l', hl', -, hcolumn', -⟩ := h'.link
      obtain rfl := Option.some.inj (hl.symm.trans hlink)
      obtain rfl := Option.some.inj (hl'.symm.trans (hsame.trans hlink))
      exact ⟨host, host', rfl, rfl, Option.some.inj
        (hagree l'.referencedKey (by simpa using hcolumn) (by simpa using hcolumn'))⟩

namespace Task

/-- A task that stands below both of two hosts that agree joins to them alike. -/
theorem Below.joinedTo_congr {catalog : Catalog} {task : Task} {host? host?' : Option Host}
    (h : task.Below catalog (host?.map Host.task)) (h' : task.Below catalog (host?'.map Host.task))
    (hagree : Host.Agree host? host?') : task.joinedTo host? = task.joinedTo host?' := by
  cases hlink : task.link with
  | none => rw [joinedTo_unlinked hlink, joinedTo_unlinked hlink]
  | some link =>
    obtain ⟨host, host', rfl, rfl, hindex⟩ := hagree.index_eq h h' rfl hlink
    rw [joinedTo_linked hlink, joinedTo_linked hlink, hostConstraint, hostConstraint, hindex]

/-- The key with which a task writes into a record is read off the index of its host. -/
theorem targetKey?_congr (task : Task) {link : Link} {host host' : Host}
    (hindex : JoinIndex.ofOutcome host.fetched link.referencedKey =
      .ofOutcome host'.fetched link.referencedKey) (position : Nat) :
    task.targetKey? link host position = task.targetKey? link host' position := by
  have htargets : task.hostTargets link host = task.hostTargets link host' := by
    rw [hostTargets, hostTargets, hindex]
  have hfind := task.find?_hostTargets link host position
  rw [htargets, find?_hostTargets] at hfind
  refine Option.map_injective (fun a b hab => (Prod.mk.inj hab).1) hfind.symm

end Task

/-! ## Visits that are alike -/

/-- Visits to the same tasks that came to the same end, wherever they stand and whatever was before
them. -/
inductive Visit.Alike : List Visit → List Visit → Prop where
  | nil : Alike [] []
  | missed {stop stop' : Stop} {fault : Option Fault} {rest rest' : List Visit} :
      stop.task = stop'.task → Alike rest rest' →
      Alike (.missed stop fault :: rest) (.missed stop' fault :: rest')
  | kept {stop stop' : Stop} {fetched : Outcome} {nested nested' rest rest' : List Visit} :
      stop.task = stop'.task → Alike nested nested' → Alike rest rest' →
      Alike (.kept stop fetched nested :: rest) (.kept stop' fetched nested' :: rest')

namespace Visit

/-- Two visits leave the same at their task's path. -/
structure Leaves (visit visit' : Visit) : Prop where
  task : visit.stop.task = visit'.stop.task
  result : visit.result = visit'.result
  final : visit.final = visit'.final

theorem valueFor_congr {visit visit' : Visit} (htask : visit.stop.task = visit'.stop.task)
    (hresult : visit.result = visit'.result) (link : Link) (final : Outcome) (key : Json) :
    visit.valueFor link final key = visit'.valueFor link final key := by
  cases visit with
  | missed stop fault =>
    cases visit' with
    | missed stop' fault' => rfl
    | kept stop' fetched' nested' => cases hresult
  | kept stop fetched nested =>
    cases visit' with
    | missed stop' fault' => cases hresult
    | kept stop' fetched' nested' =>
      obtain rfl := Except.ok.inj hresult
      have htask : stop.task = stop'.task := htask
      simp only [valueFor, htask]

/-- A visit puts the same into a record of either of two hosts that have the same keys for it. -/
theorem stitchAt_congr {visit visit' : Visit} (h : visit.Leaves visit') {host host' : Host}
    (hindex : ∀ link ∈ visit.stop.task.link,
      JoinIndex.ofOutcome host.fetched link.referencedKey = .ofOutcome host'.fetched link.referencedKey)
    (position : Nat) (record : Record) :
    visit.stitchAt host visit.final position record =
      visit'.stitchAt host' visit'.final position record := by
  unfold stitchAt
  rw [← h.task, ← h.final]
  cases hlink : visit.stop.task.link with
  | none => rfl
  | some link =>
    have htarget := Task.targetKey?_congr visit.stop.task (hindex link hlink) position
    simp only [htarget, valueFor_congr h.task h.result]

theorem stitchAll_congr {visits visits' : List Visit} (h : List.Forall₂ Leaves visits visits')
    {host host' : Host}
    (hindex : ∀ visit ∈ visits, ∀ link ∈ visit.stop.task.link,
      JoinIndex.ofOutcome host.fetched link.referencedKey = .ofOutcome host'.fetched link.referencedKey)
    (position : Nat) (record : Record) :
    stitchAll host visits position record = stitchAll host' visits' position record := by
  induction h with
  | nil => rfl
  | @cons visit visit' rest rest' hhead _ ih =>
    obtain ⟨hvisit, hrest⟩ := List.forall_mem_cons.1 hindex
    have hrest : stitchAll host rest position record = stitchAll host' rest' position record := ih hrest
    show visit.stitchAt host visit.final position (stitchAll host rest position record) =
      visit'.stitchAt host' visit'.final position (stitchAll host' rest' position record)
    rw [hrest, stitchAt_congr hhead hvisit]

/-- **Visits that are alike leave the same.** -/
theorem Alike.leaves {visits visits' : List Visit} (h : Alike visits visits') :
    List.Forall₂ Leaves visits visits' := by
  induction h with
  | nil => exact .nil
  | missed htask _ ih => exact .cons ⟨htask, rfl, by simp only [final]⟩ ih
  | @kept stop stop' fetched _ _ _ _ htask _ _ ihnested ih =>
    refine .cons ⟨htask, rfl, ?_⟩ ih
    rw [final_kept, final_kept, htask]
    congr 1
    funext position row
    exact stitchAll_congr ihnested (fun _ _ _ _ => rfl) position _

/-- What the visits of a walk report. -/
def reports (visits : List Visit) : List String := (faultsOf visits).map fun x => x.1.report x.2

theorem reports_cons (visit : Visit) (rest : List Visit) :
    reports (visit :: rest) = reports [visit] ++ reports rest := by
  cases visit <;> simp [reports, faultsOf]

/-- **Visits that are alike report the same.** -/
theorem Alike.reports_eq {visits visits' : List Visit} (h : Alike visits visits') :
    reports visits = reports visits' := by
  unfold reports
  induction h with
  | nil => rfl
  | @missed stop stop' fault _ _ htask _ ih =>
    rw [faultsOf, faultsOf, List.map_append, List.map_append, ih]
    congr 1
    cases fault <;> simp [Stop.report, htask]
  | kept _ _ _ ihnested ih =>
    rw [faultsOf, faultsOf, List.map_append, List.map_append, ihnested, ih]

end Visit

/-! ## Two walks side by side -/

namespace Engine.Follows

variable {engine : Engine σ} {operation : Operation} {input input' : Record}
  {branches : List Branch} {place place' : Nat} {progress progress' final final' : Progress}
  {s s₁ s₂ : σ} {w w' w₁ w₂ : Watched σ} {visits visits' : List Visit}

/-- Below a task with an outcome every visit finds what the task left behind. -/
theorem receives {task : Task} {fetched : Outcome}
    (h : engine.Follows operation input branches (place + 1)
      ((progress.enter task place).keep task place fetched) s visits final s₁)
    {catalog : Catalog} (hkeys : task.path.keys ≠ []) (hfits : Branch.Fits catalog (some task) branches) :
    Host.Receives catalog (some ⟨task, place, fetched⟩) branches visits where
  fits := hfits
  holds := fun host hmem visit hvisit => by
    obtain rfl := Option.some.inj hmem
    exact (h.holds_of_mem hfits hkeys (Progress.holds_keep ..) hvisit).1

/-- The root of a forest comes out alike in two walks, of the same calls. -/
theorem root_alike (hsteady : engine.registry.Steady operation) {task : Task} {host? host?' : Option Host}
    (hagree : Host.Agree host? host?')
    (hbelow : task.Below engine.catalog (host?.map Host.task) ∧ ∀ host ∈ host?, progress.Holds host)
    (hbelow' : task.Below engine.catalog (host?'.map Host.task) ∧ ∀ host ∈ host?', progress'.Holds host)
    {result result' : Except (Option Fault) Outcome} (hstate : w'.state = w.state)
    (h : (engine.watched.attempt ⟨operation, engine.catalog, input, progress.cache⟩ task).run w =
      (result, w₁))
    (h' : (engine.watched.attempt ⟨operation, engine.catalog, input', progress'.cache⟩ task).run w' =
      (result', w₂)) :
    result = result' ∧ w₁.state = w.state ∧ w₂.state = w.state ∧
      ∃ turn, w₁.calls = w.calls ++ turn ∧ w₂.calls = w'.calls ++ turn := by
  refine attempt_watched_steady hsteady ?_ ?_ ?_ ?_ hstate h h'
  · rfl
  · rfl
  · rfl
  · show task.joined progress.cache = task.joined progress'.cache
    rw [joined_eq hbelow.1 hbelow.2, joined_eq hbelow'.1 hbelow'.2,
      hbelow.1.joinedTo_congr hbelow'.1 hagree]

/-- **Two walks through one forest are alike**, and of the same calls, where all who are called are
steady and the hosts of the two, if there are any, have the same keys to join to. -/
theorem alike_watched (hsteady : engine.registry.Steady operation)
    (h : engine.watched.Follows operation input branches place progress w visits final w₁)
    (h' : engine.watched.Follows operation input' branches place' progress' w' visits' final' w₂)
    (hstate : w'.state = w.state) {host? host?' : Option Host} (hagree : Host.Agree host? host?')
    (hhost : Host.Receives engine.catalog host? branches visits)
    (hhost' : Host.Receives engine.catalog host?' branches visits') :
    Visit.Alike visits visits' ∧ w₁.state = w.state ∧ w₂.state = w.state ∧
      ∃ calls, w₁.calls = w.calls ++ calls ∧ w₂.calls = w'.calls ++ calls := by
  induction h generalizing host? host?' place' progress' w' visits' final' w₂ with
  | nil =>
    cases h'
    exact ⟨.nil, rfl, hstate, [], by simp, by simp⟩
  | @missed task nested rest place progress _ w _ _ fault visits hattempt _ ih =>
    cases h' with
    | missed hattempt' hrun' =>
      obtain ⟨hsame, hleft, hleft', turn, hturn, hturn'⟩ :=
        root_alike hsteady hagree hhost.head hhost'.head hstate hattempt hattempt'
      obtain rfl := Except.error.inj hsame
      obtain ⟨halike, hlast, hlast', calls, hcalls, hcalls'⟩ :=
        ih hrun' (hleft'.trans hleft.symm) hagree hhost.tail hhost'.tail
      exact ⟨.missed rfl halike, hlast.trans hleft, hlast'.trans hleft, turn ++ calls,
        by rw [hcalls, hturn, List.append_assoc], by rw [hcalls', hturn', List.append_assoc]⟩
    | kept hattempt' _ _ =>
      cases (root_alike hsteady hagree hhost.head hhost'.head hstate hattempt hattempt').1
  | @kept task nested rest place progress _ _ w _ _ _ fetched inner visits hattempt hinner _
      ihinner ih =>
    cases h' with
    | missed hattempt' _ =>
      cases (root_alike hsteady hagree hhost.head hhost'.head hstate hattempt hattempt').1
    | kept hattempt' hinner' hrun' =>
      obtain ⟨hsame, hleft, hleft', turn, hturn, hturn'⟩ :=
        root_alike hsteady hagree hhost.head hhost'.head hstate hattempt hattempt'
      obtain rfl := Except.ok.inj hsame
      -- below the task both walks join to what was fetched for it, at its place in each
      have hkeys := hhost.head.1.keys
      have hagreeInner : Host.Agree (some ⟨task, place, fetched⟩) (some ⟨task, place', fetched⟩) :=
        Host.agree_of_fetched rfl
      obtain ⟨halikeInner, hinnerLeft, hinnerLeft', inner, hinnerCalls, hinnerCalls'⟩ :=
        ihinner hinner' (hleft'.trans hleft.symm) hagreeInner
          (hinner.receives hkeys hhost.fitsNested) (hinner'.receives hkeys hhost'.fitsNested)
      obtain ⟨halike, hlast, hlast', calls, hcalls, hcalls'⟩ :=
        ih hrun' (hinnerLeft'.trans hinnerLeft.symm) hagree hhost.tail hhost'.tail
      refine ⟨.kept rfl halikeInner halike, hlast.trans (hinnerLeft.trans hleft),
        hlast'.trans (hinnerLeft.trans hleft), turn ++ (inner ++ calls), ?_, ?_⟩
      · rw [hcalls, hinnerCalls, hturn, List.append_assoc, List.append_assoc]
      · rw [hcalls', hinnerCalls', hturn', List.append_assoc, List.append_assoc]

/-- So they are where nobody watches. -/
theorem alike (hsteady : engine.registry.Steady operation)
    (h : engine.Follows operation input branches place progress s visits final s₁)
    (h' : engine.Follows operation input' branches place' progress' s visits' final' s₂)
    {host? host?' : Option Host} (hagree : Host.Agree host? host?')
    (hhost : Host.Receives engine.catalog host? branches visits)
    (hhost' : Host.Receives engine.catalog host?' branches visits') :
    s₁ = s ∧ s₂ = s ∧ Visit.Alike visits visits' := by
  obtain ⟨w₁, hwatched, rfl⟩ := h.watched ⟨s, []⟩ rfl
  obtain ⟨w₂, hwatched', rfl⟩ := h'.watched ⟨s, []⟩ rfl
  obtain ⟨halike, hleft, hleft', -⟩ :=
    hwatched.alike_watched hsteady hwatched' rfl hagree hhost hhost'
  exact ⟨hleft, hleft', halike⟩

/-- A walk through some branches is one through the first of them, and then one through the
others. -/
theorem split {branch : Branch} {rest : List Branch}
    (h : engine.Follows operation input (branch :: rest) place progress s visits final s₁) :
    ∃ visit others place' mid s', visits = visit :: others ∧
      engine.Follows operation input [branch] place progress s [visit] mid s' ∧
      engine.Follows operation input rest place' mid s' others final s₁ := by
  cases h with
  | missed hattempt hrest => exact ⟨_, _, _, _, _, rfl, .missed hattempt .nil, hrest⟩
  | kept hattempt hinner hrest => exact ⟨_, _, _, _, _, rfl, .kept hattempt hinner .nil, hrest⟩

/-- And behind several branches it is one through those, and then one through the others. -/
theorem of_append {first last : List Branch}
    (h : engine.Follows operation input (first ++ last) place progress s visits final s₁) :
    ∃ before after place' mid s', visits = before ++ after ∧
      engine.Follows operation input first place progress s before mid s' ∧
      engine.Follows operation input last place' mid s' after final s₁ := by
  induction first generalizing place progress s visits with
  | nil => exact ⟨[], visits, place, progress, s, rfl, .nil, h⟩
  | cons branch rest ih =>
    cases h with
    | missed hattempt hrest =>
      obtain ⟨before, after, place', mid, s', rfl, hbefore, hafter⟩ := ih hrest
      exact ⟨_ :: before, after, place', mid, s', rfl, .missed hattempt hbefore, hafter⟩
    | kept hattempt hinner hrest =>
      obtain ⟨before, after, place', mid, s', rfl, hbefore, hafter⟩ := ih hrest
      exact ⟨_ :: before, after, place', mid, s', rfl, .kept hattempt hinner hbefore, hafter⟩

end Engine.Follows

/-! ## One branch and the whole request -/

/-- The plan of a request reports what the plans of its nodes do, in order. -/
theorem Catalog.errors_plan (catalog : Catalog) (request : Record) :
    (catalog.plan request).errors =
      request.flatMap fun node => (catalog.plan [node]).errors := by
  simp [plan, List.flatMap_map]

namespace Engine

variable {engine : Engine σ} {operation : Operation}

/-- A visit to a node of a request: it is made under the key of the node, and is alike to the one
visit of a request for the node alone. -/
def VisitsAlone (engine : Engine σ) (operation : Operation) (s : σ) (node : String × Json)
    (visit : Visit) : Prop :=
  visit.stop.task.path.keys.head? = some node.1 ∧
    ∀ single final s',
      engine.Follows operation [node] (engine.catalog.forest [node]) 0
        (.start (engine.catalog.plan [node])) s single final s' →
      s' = s ∧ Visit.Alike [visit] single

/-- **Every node of a request is visited as it would be alone.** -/
theorem Follows.alone (hsteady : engine.registry.Steady operation) {input nodes : Record}
    {place : Nat} {progress final : Progress} {s s' : σ} {visits : List Visit}
    (h : engine.Follows operation input (engine.catalog.forest nodes) place progress s visits final
      s') :
    s' = s ∧ List.Forall₂ (engine.VisitsAlone operation s) nodes visits := by
  induction nodes generalizing place progress s visits with
  | nil =>
    cases h
    exact ⟨rfl, .nil⟩
  | cons node rest ih =>
    obtain ⟨visit, others, place', mid, s₁, rfl, hfirst, hrest⟩ := Follows.split h
    have hfirst : engine.Follows operation input (engine.catalog.forest [node]) place progress s
      [visit] mid s₁ := hfirst
    have halone : ∀ single final s₂,
        engine.Follows operation [node] (engine.catalog.forest [node]) 0
          (.start (engine.catalog.plan [node])) s single final s₂ →
        s₁ = s ∧ s₂ = s ∧ Visit.Alike [visit] single := fun single final s₂ hsingle =>
      hfirst.alike hsteady hsingle Host.agree_none (.top (engine.catalog.fits_forest [node]))
        (.top (engine.catalog.fits_forest [node]))
    -- there is a walk for the node alone, so the state is the same after the first branch
    obtain ⟨single, finalSingle, s₂, hsingle, -⟩ := run_follows engine operation [node] s
    obtain ⟨rfl, -, -⟩ := halone single finalSingle s₂ hsingle
    obtain ⟨rfl, hothers⟩ := ih hrest
    refine ⟨rfl, .cons ⟨?_, fun single final s₂ hsingle => (halone single final s₂ hsingle).2⟩ hothers⟩
    obtain ⟨branch, hbranch, hroot⟩ := hfirst.root_of_mem (List.mem_singleton_self visit)
    have hsegments := (engine.catalog.compiles_forest [node]).segments
    have hsegment : branch.segment? ∈ (engine.catalog.forest [node]).map Branch.segment? :=
      List.mem_map_of_mem hbranch
    rw [hsegments] at hsegment
    rw [← hroot]
    exact List.mem_singleton.1 hsegment

/-- **And of the calls that are made for it alone.** -/
theorem Follows.calls_alone (hsteady : engine.registry.Steady operation) {input nodes : Record}
    {place : Nat} {progress final : Progress} {w w' : Watched σ} {visits : List Visit}
    (h : engine.watched.Follows operation input (engine.catalog.forest nodes) place progress w visits
      final w') :
    w'.calls = w.calls ++ nodes.flatMap fun node => engine.calls operation [node] w.state := by
  induction nodes generalizing place progress w visits with
  | nil =>
    cases h
    simp
  | cons node rest ih =>
    obtain ⟨visit, others, place', mid, w₁, rfl, hfirst, hrest⟩ := Follows.split h
    have hfirst : engine.watched.Follows operation input (engine.catalog.forest [node]) place progress
      w [visit] mid w₁ := hfirst
    obtain ⟨single, finalSingle, w₂, hsingle, hsettled⟩ :=
      run_settled engine.watched operation [node] ⟨w.state, []⟩
    obtain ⟨-, hleft, -, turn, hcalls, halone⟩ :=
      hfirst.alike_watched hsteady hsingle rfl Host.agree_none
        (.top (engine.catalog.fits_forest [node])) (.top (engine.catalog.fits_forest [node]))
    have hturn : engine.calls operation [node] w.state = turn := by
      rw [calls, hsettled, halone, List.nil_append]
    rw [ih hrest, hleft, hcalls, List.flatMap_cons, hturn, List.append_assoc]

/-! ### The data tree -/

variable {s : σ} {nodes : Record} {visits : List Visit}

/-- **Under the key of a node is what a tree of it alone would have there.** -/
theorem get?_alone (h : List.Forall₂ (engine.VisitsAlone operation s) nodes visits)
    (hnodup : (Keyed.keys nodes).Nodup) :
    ∀ node ∈ nodes, ∃ visit, engine.VisitsAlone operation s node visit ∧
      (visits.foldl Visit.collectInto (.obj [])).get? node.1 =
        (Visit.collectInto (.obj []) visit).get? node.1 := by
  have hsegments : visits.map Visit.segment? = (Keyed.keys nodes).map some := by
    clear hnodup
    induction h with
    | nil => rfl
    | cons hhead _ ih => exact congrArg₂ List.cons hhead.1 ih
  have hvisits : (visits.map Visit.segment?).Nodup :=
    hsegments ▸ hnodup.map (Option.some_injective _)
  intro node hmem
  obtain ⟨i, hi, rfl⟩ := List.getElem_of_mem hmem
  have halone := h.get hi (h.length_eq ▸ hi)
  exact ⟨_, halone, Visit.get?_collected hvisits (List.get_mem ..) halone.1 []⟩

/-- There is something under the key of a node alone. -/
theorem isSome_collectInto {node : String × Json} {visit : Visit}
    (h : engine.VisitsAlone operation s node visit) :
    ((Visit.collectInto (.obj []) visit).get? node.1).isSome := by
  obtain ⟨rest, hkeys⟩ := List.head?_eq_some_iff.1 h.1
  have hwritten : (Visit.collectInto (.obj []) visit).get? node.1 =
      (Json.written? visit.final.toJson rest none).or none := by
    refine Eq.trans ?_ ((Json.get?_writeInto [] node.1 rest visit.final.toJson node.1).trans
      (if_pos rfl))
    rw [Visit.collectInto, hkeys]
    rfl
  rw [hwritten]
  cases rest with
  | nil => rfl
  | cons next rest =>
    have hbelow := (Json.writeBelow?_isSome_iff visit.final.toJson (List.cons_ne_nil next rest) []).2
      (by cases rest <;> simp [Json.Clear])
    simpa [Json.written?] using hbelow

/-! ### The reports -/

/-- The faults that a run reports beyond those of the plan. -/
def runReports (engine : Engine σ) (operation : Operation) (request : Record) (s : σ) : List String :=
  ((engine.run operation request).run s).1.errors.drop (engine.catalog.plan request).errors.length

/-- A run answers with the tree of its visits, and reports what the plan does and what they do. -/
theorem run_reports (engine : Engine σ) (operation : Operation) (request : Record) (s : σ) :
    ∃ visits final s',
      engine.Follows operation request (engine.catalog.forest request) 0
        (.start (engine.catalog.plan request)) s visits final s' ∧
      (engine.run operation request).run s =
        (⟨visits.foldl Visit.collectInto (.obj []),
          (engine.catalog.plan request).errors ++ Visit.reports visits⟩, s') ∧
      engine.runReports operation request s = Visit.reports visits := by
  obtain ⟨visits, final, s', hfollows, hrun⟩ := run_follows engine operation request s
  have herrors : final.errors = (engine.catalog.plan request).errors ++ Visit.reports visits :=
    hfollows.errors
  rw [herrors] at hrun
  refine ⟨visits, final, s', hfollows, hrun, ?_⟩
  rw [runReports, hrun]
  exact List.drop_left

/-- **The runs of the nodes alone report what the whole run does**, in order. -/
theorem reports_alone (h : List.Forall₂ (engine.VisitsAlone operation s) nodes visits) :
    Visit.reports visits = nodes.flatMap fun node => engine.runReports operation [node] s := by
  induction h with
  | nil => simp [Visit.reports, Visit.faultsOf]
  | @cons node visit _ _ hhead _ ih =>
    obtain ⟨single, final, s', hsingle, -, hreports⟩ := engine.run_reports operation [node] s
    rw [Visit.reports_cons, ih, List.flatMap_cons, hreports,
      (hhead.2 single final s' hsingle).2.reports_eq]

/-- The calls for a request are those for its nodes alone, one node after the other. -/
theorem calls_flatMap (hsteady : engine.registry.Steady operation) (request : Record) (s : σ) :
    engine.calls operation request s =
      request.flatMap fun node => engine.calls operation [node] s := by
  obtain ⟨visits, final, w', hfollows, hsettled⟩ :=
    run_settled engine.watched operation request ⟨s, []⟩
  have hcalls : w'.calls = _ := hfollows.calls_alone hsteady
  rw [calls, hsettled, hcalls]
  exact List.nil_append _

/-- A request answers for each of its nodes as a request for that node alone does. -/
structure Isolated (engine : Engine σ) (operation : Operation) (request : Record) (s : σ) :
    Prop where
  /-- The state stays, so that all these requests are made in one state. -/
  unchanged : ((engine.run operation request).run s).2 = s ∧
    ∀ node ∈ request, ((engine.run operation [node]).run s).2 = s
  /-- The same calls are made. -/
  calls : engine.calls operation request s =
    request.flatMap fun node => engine.calls operation [node] s
  /-- Under the key of each node is what the node alone has there. -/
  data : ∀ node ∈ request,
    ((engine.run operation request).run s).1.data.get? node.1 =
        ((engine.run operation [node]).run s).1.data.get? node.1 ∧
      (((engine.run operation request).run s).1.data.get? node.1).isSome
  /-- What is reported for a node is what its plan reports, and then what its run reports. -/
  reported : ∀ node ∈ request, ((engine.run operation [node]).run s).1.errors =
    (engine.catalog.plan [node]).errors ++ engine.runReports operation [node] s
  /-- First come the reports of the plans of all nodes, then those of their runs. -/
  errors : ((engine.run operation request).run s).1.errors =
    request.flatMap (fun node => (engine.catalog.plan [node]).errors) ++
      request.flatMap fun node => engine.runReports operation [node] s

theorem isolated_of_steady (hsteady : engine.registry.Steady operation) {request : Record}
    (hrequest : (Json.obj request).Distinct) (s : σ) : engine.Isolated operation request s := by
  have hunchanged : ∀ part : Record, ((engine.run operation part).run s).2 = s := by
    intro part
    obtain ⟨visits, final, s', hfollows, hrun, -⟩ := engine.run_reports operation part s
    rw [hrun]
    exact (hfollows.alone hsteady).1
  have hreported : ∀ part : Record, ((engine.run operation part).run s).1.errors =
      (engine.catalog.plan part).errors ++ engine.runReports operation part s := by
    intro part
    obtain ⟨visits, final, s', -, hrun, hreports⟩ := engine.run_reports operation part s
    rw [hrun, hreports]
  obtain ⟨visits, final, s', hfollows, hrun, hreports⟩ := engine.run_reports operation request s
  obtain ⟨-, halone⟩ := hfollows.alone hsteady
  refine ⟨⟨hunchanged request, fun node _ => hunchanged [node]⟩, calls_flatMap hsteady request s,
    fun node hmem => ?_, fun node _ => hreported [node], ?_⟩
  · have hnodup := ((Json.distinct_obj_iff request).1 hrequest).1
    obtain ⟨visit, hvisit, hdata⟩ := get?_alone halone hnodup node hmem
    obtain ⟨single, finalSingle, s₁, hsingle, hrunSingle, -⟩ := engine.run_reports operation [node] s
    have hleaves := (hvisit.2 single finalSingle s₁ hsingle).2.leaves
    obtain ⟨visit', _, hvisit', hnil, rfl⟩ := List.forall₂_cons_left_iff.1 hleaves
    obtain rfl := List.forall₂_nil_left_iff.1 hnil
    have hsame : Visit.collectInto (.obj []) visit = Visit.collectInto (.obj []) visit' := by
      rw [Visit.collectInto, Visit.collectInto, hvisit'.task, hvisit'.final]
    have hwhole : ((engine.run operation request).run s).1.data.get? node.1 =
        (Visit.collectInto (.obj []) visit).get? node.1 := by
      rw [hrun]
      exact hdata
    refine ⟨?_, hwhole ▸ isSome_collectInto hvisit⟩
    rw [hwhole, hrunSingle, hsame]
    rfl
  · rw [hreported, hreports, Catalog.errors_plan, reports_alone halone]

/-- A store has to sort for a request what it has to sort for the nodes alone. -/
theorem ranked_iff_alone (catalog : Catalog) {operation : Operation}
    (hoperation : operation ∈ [.query, .count, .update]) (request : Record) (store : Store) :
    Ranked catalog operation request store ↔
      ∀ node ∈ request, Ranked catalog operation [node] store := by
  have hcalls := calls_flatMap (steady_ofCatalog catalog hoperation) request store
  simp only [Ranked, executions, hcalls, List.filterMap_flatMap, List.mem_flatMap]
  constructor
  · intro h node hnode hquery call hcall
    exact h hquery call ⟨node, hnode, hcall⟩
  · rintro h hquery call ⟨node, hnode, hcall⟩
    exact h node hnode hquery call hcall

/-- **The branches of a request are isolated** where a store serves it, unless rows are created or
removed: each is answered, and reports, as if it were alone. What is sorted has to be ranked by the
columns it is sorted by, for the request as for each branch alone; nothing is said of a run that a
sort of other rows may stop. -/
theorem isolated (catalog : Catalog) {operation : Operation}
    (hoperation : operation ∈ [.query, .count, .update]) {request : Record}
    (hrequest : (Json.obj request).Distinct) (store : Store) :
    (Ranked catalog operation request store ↔
        ∀ node ∈ request, Ranked catalog operation [node] store) ∧
      (Ranked catalog operation request store →
        (ofCatalog catalog).Isolated operation request store) :=
  ⟨ranked_iff_alone catalog hoperation request store, fun _ =>
    isolated_of_steady (steady_ofCatalog catalog hoperation) hrequest store⟩

end Engine

namespace Library

/-- Sorted authors with their books, all books under a key that reads like the path to those, and a
node without model. -/
def echoes : Record :=
  [("authors", .obj [("@sort", .str "-name"), ("books", .bool true)]),
    ("authors.books", .obj [("@model", .str "books"), ("@sort", .str "id")]), ("nobody", .bool true)]

theorem ranked_stocked (operation : Operation) (request : Record) :
    Engine.Ranked catalog operation request stocked :=
  Engine.ranked_of_plan fun task _ => (stocked_sortsPlainly task).ranks

end Library

/-- Two of the branches have paths of one text. -/
theorem Engine.isolated_library : Operation.query ∈ [.query, .count, .update] ∧
    (Json.obj Library.echoes).Distinct ∧
    (Library.catalog.plan Library.echoes).tasks.map (fun task => (task.path.text, task.sort)) =
      [("authors", some [⟨"name", .descending⟩]), ("authors.books", none),
        ("authors.books", some [⟨"id", .ascending⟩]), ("nobody", none)] ∧
    Ranked Library.catalog .query Library.echoes Library.stocked ∧
    (ofCatalog Library.catalog).Isolated .query Library.echoes Library.stocked := by
  have hdistinct : (Json.obj Library.echoes).Distinct := by
    simp [Library.echoes, Keyed.keys, Json.Distinct, Json.DistinctFields]
  have hquery : Operation.query ∈ [.query, .count, .update] := .head _
  have hranked := Library.ranked_stocked .query Library.echoes
  exact ⟨hquery, hdistinct, by decide +kernel, hranked,
    (isolated Library.catalog hquery hdistinct Library.stocked).2 hranked⟩

end NestedQuery
