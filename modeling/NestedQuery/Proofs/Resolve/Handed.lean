import NestedQuery.Proofs.Resolve.Kin
/-!
# What a store is handed

In a query that is served from memory each task is joined to what was
fetched for the task around it, and handed to the store. Which tasks
these are is told by the store and the forest alone (`Store.Handed`),
and a walk hands out these and no others (`Engine.Follows.handed_iff`).
So whether all is ranked that a query sorts can be told without the walk
(`Engine.ranked_iff_handed`), and be held against another query.

Where all that is handed out for one forest is about the same rows as
something that is for another one (`Store.Covers`), the one is ranked if
the other is (`Task.SameRows.ranks`).
-/

namespace NestedQuery

/-! ## Branches below a host -/

/-- Branches of a plan fit below a host, or at the top, and what did not fail is sound. -/
structure Host.Seats (catalog : Catalog) (host? : Option Host) (branches : List Branch) : Prop where
  fits : Branch.Fits catalog (host?.map Host.task) branches
  sound : ∀ task ∈ Branch.tasksOf branches, task.isFailed = false → task.Sound catalog

namespace Host.Seats

variable {catalog : Catalog} {host? : Option Host} {task : Task} {first last nested rest : List Branch}

theorem of_append (h : Seats catalog host? (first ++ last)) :
    Seats catalog host? first ∧ Seats catalog host? last := by
  obtain ⟨hfits, hsound⟩ := h
  rw [Branch.tasksOf_append] at hsound
  exact ⟨⟨hfits.of_append.1, fun t ht => hsound t (List.mem_append_left _ ht)⟩,
    ⟨hfits.of_append.2, fun t ht => hsound t (List.mem_append_right _ ht)⟩⟩

theorem below (h : Seats catalog host? (.node task nested :: rest)) :
    task.Below catalog (host?.map Host.task) :=
  Branch.root_below h.fits (List.mem_cons_self ..)

theorem sound_root (h : Seats catalog host? (.node task nested :: rest))
    (hfailed : task.isFailed = false) : task.Sound catalog :=
  h.sound task (by simp) hfailed

/-- What is nested in a task is seated below it. -/
theorem inner (h : Seats catalog host? (.node task nested :: rest)) (place : Nat)
    (fetched : Outcome) : Seats catalog (some ⟨task, place, fetched⟩) nested where
  fits := by
    cases h.fits with
    | node _ _ hnested _ => exact hnested
  sound := fun t ht => h.sound t (by
    rw [Branch.tasksOf_node]
    exact List.mem_cons_of_mem _ (List.mem_append_left _ ht))

theorem tail {branch : Branch} (h : Seats catalog host? (branch :: rest)) :
    Seats catalog host? rest := by
  have hsplit : Seats catalog host? ([branch] ++ rest) := h
  exact hsplit.of_append.2

end Host.Seats

/-- Such branches with the visits to them, where siblings differ. -/
structure Host.Carries (catalog : Catalog) (host? : Option Host) (branches : List Branch)
    (visits : List Visit) : Prop
    extends Host.Receives catalog host? branches visits, Host.Seats catalog host? branches where
  apart : Branch.Apart branches

namespace Host.Carries

variable {catalog : Catalog} {host? : Option Host} {task : Task} {first last nested rest : List Branch}
  {visit : Visit} {visits more : List Visit}

theorem of_append (h : Carries catalog host? (first ++ last) (visits ++ more)) :
    Carries catalog host? first visits ∧ Carries catalog host? last more := by
  obtain ⟨⟨hfits, hholds⟩, hsound, hapart⟩ := h
  rw [Branch.tasksOf_append] at hsound
  exact ⟨⟨⟨hfits.of_append.1, fun host hmem v hv => hholds host hmem v (List.mem_append_left _ hv)⟩,
      fun t ht => hsound t (List.mem_append_left _ ht), hapart.of_append.1⟩,
    ⟨⟨hfits.of_append.2, fun host hmem v hv => hholds host hmem v (List.mem_append_right _ hv)⟩,
      fun t ht => hsound t (List.mem_append_right _ ht), hapart.of_append.2⟩⟩

theorem tail (h : Carries catalog host? (.node task nested :: rest) (visit :: visits)) :
    Carries catalog host? rest visits := by
  have hsplit : Carries catalog host? ([.node task nested] ++ rest) ([visit] ++ visits) := h
  exact hsplit.of_append.2

/-- The nodes of a request are carried by none. -/
theorem forest (haccepted : catalog.Accepted) {request : Record}
    (hrequest : (Json.obj request).Distinct) (visits : List Visit) :
    Carries catalog none (catalog.forest request) visits where
  toReceives := .top (catalog.fits_forest request)
  sound := fun task hmem =>
    catalog.sound_of_unfailed haccepted hrequest task (catalog.plan_tasks request ▸ hmem)
  apart := catalog.apart_forest hrequest

end Host.Carries

/-! ## Walks that are served from memory -/

namespace Engine

variable {catalog : Catalog} {input : Record} {branches : List Branch} {place : Nat}
  {progress final : Progress} {store s : Store} {visits : List Visit} {host? : Option Host}

/-- A task that is sound unless it failed comes out as the store has it. -/
theorem attempt_below (hmemory : catalog.InMemory) {task : Task}
    (hsound : task.isFailed = false → task.Sound catalog)
    (hbelow : task.Below catalog (host?.map Host.task) ∧ ∀ host ∈ host?, progress.Holds host)
    {result : Except (Option Fault) Outcome}
    (h : ((ofCatalog catalog).attempt ⟨.query, (ofCatalog catalog).catalog, input, progress.cache⟩
      task).run store = (result, s)) :
    s = store ∧ result =
      if task.isFailed || (store.select (task.joinedTo host?)).isAbsent then .error none
      else .ok (store.select (task.joinedTo host?)) := by
  cases hfailed : task.isFailed with
  | true =>
    rw [attempt, hfailed] at h
    obtain ⟨hresult, rfl⟩ := Prod.mk.inj h
    exact ⟨rfl, hresult.symm⟩
  | false =>
    rw [attempt_query ((hsound hfailed).inMemory hmemory) (Follows.joined_eq hbelow.1 hbelow.2)] at h
    obtain ⟨hresult, rfl⟩ := Prod.mk.inj h
    exact ⟨rfl, hresult.symm⟩

namespace Follows

/-- What is nested in a task with an outcome is carried by it. -/
theorem carries {σ : Type} {engine : Engine σ} {operation : Operation} {task : Task}
    {nested rest : List Branch} {fetched : Outcome} {inner : List Visit} {s s' : σ}
    (h : engine.Follows operation input nested (place + 1)
      ((progress.enter task place).keep task place fetched) s inner final s')
    (hcarries : Host.Carries catalog host? (.node task nested :: rest) visits)
    (hkeys : task.path.keys ≠ []) :
    Host.Carries catalog (some ⟨task, place, fetched⟩) nested inner where
  toReceives := h.receives hkeys hcarries.fitsNested
  sound := (hcarries.toSeats.inner place fetched).sound
  apart := by
    cases hcarries.apart with
    | node _ hnested _ => exact hnested

/-- **A walk that is served from memory** leaves the store as it is, and meets no fault, whatever of
the plan failed. -/
theorem quiet (hmemory : catalog.InMemory)
    (h : (ofCatalog catalog).Follows .query input branches place progress store visits final s)
    (hcarries : Host.Carries catalog host? branches visits) :
    s = store ∧ Visit.faultsOf visits = [] := by
  induction h generalizing host? with
  | nil => exact ⟨rfl, by rw [Visit.faultsOf]⟩
  | @missed task nested rest place progress _ store _ _ fault visits hattempt _ ih =>
    obtain ⟨rfl, hresult⟩ :=
      attempt_below hmemory (hcarries.sound task (by simp)) hcarries.head hattempt
    obtain ⟨rfl, hrest⟩ := ih hcarries.tail
    refine ⟨rfl, ?_⟩
    split at hresult
    · obtain rfl := Except.error.inj hresult
      rw [Visit.faultsOf, hrest]
      rfl
    · cases hresult
  | @kept task nested rest place progress _ _ store _ _ _ fetched inner visits hattempt hinner _
      ihinner ih =>
    obtain ⟨rfl, -⟩ := attempt_below hmemory (hcarries.sound task (by simp)) hcarries.head hattempt
    obtain ⟨rfl, hnested⟩ := ihinner (hinner.carries hcarries hcarries.head.1.keys)
    obtain ⟨rfl, hrest⟩ := ih hcarries.tail
    exact ⟨rfl, by rw [Visit.faultsOf, hnested, hrest]; rfl⟩

end Follows

end Engine

/-! ## Tasks that a store is handed -/

/-- A task that a store is handed for branches below a host, or at the top, as it is joined. -/
inductive Store.Handed (store : Store) : Option Host → List Branch → Task → Prop where
  | root {host? : Option Host} {task : Task} {nested rest : List Branch} :
      task.isFailed = false → Handed store host? (.node task nested :: rest) (task.joinedTo host?)
  /-- What the store has for a task is joined to by what is nested in it. -/
  | nested {host? : Option Host} {task handed : Task} {nested rest : List Branch} {place : Nat} :
      task.isFailed = false → (store.select (task.joinedTo host?)).isAbsent = false →
      Handed store (some ⟨task, place, store.select (task.joinedTo host?)⟩) nested handed →
      Handed store host? (.node task nested :: rest) handed
  | rest {host? : Option Host} {branch : Branch} {rest : List Branch} {handed : Task} :
      Handed store host? rest handed → Handed store host? (branch :: rest) handed

namespace Store

variable {store : Store} {catalog : Catalog} {host? host?' : Option Host} {handed : Task}
  {first last branches : List Branch}

theorem handed_cons {task : Task} {nested rest : List Branch} :
    store.Handed host? (.node task nested :: rest) handed ↔
      task.isFailed = false ∧ (task.joinedTo host? = handed ∨
        (store.select (task.joinedTo host?)).isAbsent = false ∧ ∃ place,
          store.Handed (some ⟨task, place, store.select (task.joinedTo host?)⟩) nested handed) ∨
      store.Handed host? rest handed := by
  constructor
  · intro h
    cases h with
    | root hfailed => exact .inl ⟨hfailed, .inl rfl⟩
    | nested hfailed hpresent hinner => exact .inl ⟨hfailed, .inr ⟨hpresent, _, hinner⟩⟩
    | rest hrest => exact .inr hrest
  · rintro (⟨hfailed, rfl | ⟨hpresent, place, hinner⟩⟩ | hrest)
    · exact .root hfailed
    · exact .nested hfailed hpresent hinner
    · exact .rest hrest

theorem handed_append :
    store.Handed host? (first ++ last) handed ↔
      store.Handed host? first handed ∨ store.Handed host? last handed := by
  induction first with
  | nil => exact ⟨.inr, fun h => h.resolve_left nofun⟩
  | cons branch rest ih =>
    cases branch
    rw [List.cons_append, handed_cons, handed_cons, ih, or_assoc]

/-- For the same branches below hosts that agree it is handed the same. -/
theorem Handed.congr (h : store.Handed host? branches handed) (hagree : Host.Agree host? host?')
    (hseats : Host.Seats catalog host? branches) (hseats' : Host.Seats catalog host?' branches) :
    store.Handed host?' branches handed := by
  induction h with
  | root hfailed =>
    rw [hseats.below.joinedTo_congr hseats'.below hagree]
    exact .root hfailed
  | nested hfailed hpresent hinner _ =>
    -- the tasks are joined alike, so what is nested in them stands below one and the same host
    rw [hseats.below.joinedTo_congr hseats'.below hagree] at hpresent hinner
    exact .nested hfailed hpresent hinner
  | rest _ ih => exact .rest (ih hagree hseats.tail hseats'.tail)

/-- What a store is handed for some branches is about the same rows as something that it is handed
for others. -/
def Covers (store : Store) (host? host?' : Option Host) (branches branches' : List Branch) : Prop :=
  ∀ handed, store.Handed host?' branches' handed →
    ∃ found, store.Handed host? branches found ∧ found.SameRows handed

theorem covers_self (hagree : Host.Agree host? host?') (hseats : Host.Seats catalog host? branches)
    (hseats' : Host.Seats catalog host?' branches) :
    store.Covers host? host?' branches branches := fun handed hhanded =>
  ⟨handed, hhanded.congr hagree.symm hseats' hseats, .refl handed⟩

theorem Covers.append {first' last' : List Branch} (hfirst : store.Covers host? host?' first first')
    (hlast : store.Covers host? host?' last last') :
    store.Covers host? host?' (first ++ last) (first' ++ last') := by
  intro handed hhanded
  rcases handed_append.1 hhanded with hhanded | hhanded
  · obtain ⟨found, hfound, hrows⟩ := hfirst handed hhanded
    exact ⟨found, handed_append.2 (.inl hfound), hrows⟩
  · obtain ⟨found, hfound, hrows⟩ := hlast handed hhanded
    exact ⟨found, handed_append.2 (.inr hfound), hrows⟩

theorem Covers.behind {branches' : List Branch} (h : store.Covers host? host?' branches branches')
    (branch : Branch) : store.Covers host? host?' (branch :: branches) branches' := by
  intro handed hhanded
  obtain ⟨found, hfound, hrows⟩ := h handed hhanded
  exact ⟨found, .rest hfound, hrows⟩

/-- A task covers its kin, if what is nested in it covers what is nested in these. -/
theorem Covers.node {task other : Task} {nested nested' : List Branch} (hkin : task.Kin other)
    (hagree : Host.Agree host? host?') (hseats : Host.Seats catalog host? [.node task nested])
    (hseats' : Host.Seats catalog host?' [.node other nested'])
    (hnested : ∀ {host host' : Host}, Host.Agree (some host) (some host') →
      Host.Seats catalog (some host) nested → Host.Seats catalog (some host') nested' →
      store.Covers (some host) (some host') nested nested') :
    store.Covers host? host?' [.node task nested] [.node other nested'] := by
  intro handed hhanded
  rcases handed_cons.1 hhanded with ⟨hfailed, hroot⟩ | hrest
  · have hunfailed : task.isFailed = false := hkin.isFailed_eq.symm.trans hfailed
    rcases hroot with rfl | ⟨hpresent, place, hinner⟩
    · exact ⟨_, .root hunfailed, hkin.joinedTo_sameRows hagree hseats.below hseats'.below⟩
    · obtain ⟨rows, hrows, hrows'⟩ := hkin.exists_rows hagree hseats.below hseats'.below store
      have hpresent : (store.select (task.joinedTo host?)).isAbsent = false := by
        rw [hrows, Outcome.isAbsent_mapRecords]
        rwa [hrows', Outcome.isAbsent_mapRecords] at hpresent
      have hbelow : Host.Agree (some ⟨task, place, store.select (task.joinedTo host?)⟩)
          (some ⟨other, place, store.select (other.joinedTo host?')⟩) := by
        intro column _ hcolumn
        rw [hrows, hrows']
        exact congrArg some (hkin.index_eq (hseats.sound_root hunfailed)
          (hseats'.sound_root hfailed) (hcolumn _ rfl) rows)
      obtain ⟨found, hfound, hsame⟩ :=
        hnested hbelow (hseats.inner _ _) (hseats'.inner _ _) handed hinner
      exact ⟨found, .nested hunfailed hpresent hfound, hsame⟩
  · cases hrest

end Store

namespace Engine.Follows

/-- A stop hands on its task with the join to the host that it may have. -/
theorem hands_iff {catalog : Catalog} {stop : Stop} {host? : Option Host}
    (hbelow : stop.task.Below catalog (host?.map Host.task))
    (hhost : ∀ host ∈ host?, stop.progress.Holds host) {handed : Task} :
    stop.Hands handed ↔ stop.task.isFailed = false ∧ stop.task.joinedTo host? = handed := by
  rw [Stop.Hands, joined_eq hbelow hhost, Except.ok.injEq]

/-- **A walk hands out what the store and the branches tell.** -/
theorem handed_iff {catalog : Catalog} {input : Record} {branches : List Branch}
    {place : Nat} {progress final : Progress} {store s : Store} {visits : List Visit}
    {host? : Option Host} (hmemory : catalog.InMemory)
    (h : (ofCatalog catalog).Follows .query input branches place progress store visits final s)
    (hcarries : Host.Carries catalog host? branches visits) {handed : Task} :
    store.Handed host? branches handed ↔
      ∃ visit ∈ Visit.all visits, visit.stop.Hands handed := by
  induction h generalizing host? with
  | nil => exact ⟨nofun, by simp [Visit.all]⟩
  | @missed task nested rest place progress _ store s₁ _ fault visits hattempt _ ih =>
    obtain ⟨rfl, hresult⟩ :=
      attempt_below hmemory (hcarries.sound task (by simp)) hcarries.head hattempt
    have hroot : (⟨task, place, progress.enter task place⟩ : Stop).Hands handed ↔
        task.isFailed = false ∧ task.joinedTo host? = handed :=
      hands_iff hcarries.head.1 hcarries.head.2
    rw [Store.handed_cons, ih hcarries.tail, Visit.all, List.exists_mem_cons_iff, Visit.stop, hroot]
    refine or_congr_left (and_congr_right fun hfailed => ?_)
    split at hresult
    · next habsent =>
      have hnot : ¬ (s₁.select (task.joinedTo host?)).isAbsent = false := by
        simpa [hfailed] using habsent
      rw [or_iff_left fun h => hnot h.1]
    · cases hresult
  | @kept task nested rest place progress _ _ store s₁ s₂ _ fetched inner visits hattempt hinner _
      ihinner ih =>
    obtain ⟨rfl, hresult⟩ :=
      attempt_below hmemory (hcarries.sound task (by simp)) hcarries.head hattempt
    have hroot : (⟨task, place, progress.enter task place⟩ : Stop).Hands handed ↔
        task.isFailed = false ∧ task.joinedTo host? = handed :=
      hands_iff hcarries.head.1 hcarries.head.2
    have hbelow := hinner.carries hcarries hcarries.head.1.keys
    obtain ⟨rfl, -⟩ := hinner.quiet hmemory hbelow
    split at hresult
    · cases hresult
    · next hpresent =>
      obtain ⟨hfailed, hpresent⟩ := Bool.or_eq_false_iff.1 (eq_false_of_ne_true hpresent)
      obtain rfl := Except.ok.inj hresult
      rw [Store.handed_cons, ih hcarries.tail, Visit.all, List.exists_mem_cons_iff]
      -- which place a task stands at makes no difference to what is nested in it
      have hplace : (∃ place', s₂.Handed (some ⟨task, place', s₂.select (task.joinedTo host?)⟩) nested
          handed) ↔ s₂.Handed (some ⟨task, place, s₂.select (task.joinedTo host?)⟩) nested handed := by
        constructor
        · rintro ⟨place', h⟩
          exact h.congr (Host.agree_of_fetched rfl) (hcarries.toSeats.inner _ _) hbelow.toSeats
        · intro h
          exact ⟨place, h⟩
      rw [hplace, ihinner hbelow, Visit.stop, hroot]
      simp only [hfailed, hpresent, true_and, List.mem_append, or_and_right, exists_or, or_assoc]

end Engine.Follows

/-- **What a query sorts is ranked** if that is which the store is handed. -/
theorem Engine.ranked_iff_handed {catalog : Catalog} (haccepted : catalog.Accepted)
    (hmemory : catalog.InMemory) {request : Record} (hrequest : (Json.obj request).Distinct)
    (store : Store) :
    Ranked catalog .query request store ↔ ∀ handed,
      store.Handed none (catalog.forest request) handed → handed.Ranks (store.found handed) := by
  obtain ⟨visits, turns, htour⟩ := (ofCatalog catalog).exists_tour .query request store
  obtain ⟨final, s', hwalk⟩ := htour.follows
  have hplan : ∀ task ∈ (catalog.plan request).tasks, task.isFailed = false → task.InMemory :=
    fun task hmem hfailed =>
      (catalog.sound_of_unfailed haccepted hrequest task hmem hfailed).inMemory hmemory
  have hhanded : ∀ {handed}, store.Handed none (catalog.forest request) handed ↔
      ∃ visit ∈ Visit.all visits, visit.stop.Hands handed :=
    hwalk.handed_iff hmemory (.forest haccepted hrequest visits)
  rw [htour.ranked_iff hplan]
  simp only [hhanded]
  constructor
  · rintro h handed ⟨visit, hmem, hhands⟩
    exact h visit hmem handed hhands
  · intro h visit hmem handed hhands
    exact h handed ⟨visit, hmem, hhands⟩

end NestedQuery
