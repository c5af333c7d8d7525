import NestedQuery.Proofs.Plan.Pruning
import NestedQuery.Proofs.Resolve.Handed
/-!
# Siblings do not interfere

If one nested node is dropped from a request, the node it was nested in
fetches fewer columns, all places behind it move up, and the writes and
the cache are others. What is answered is the same up to the key of the
dropped node, in the records of the node it was nested in; and the
reports are the same up to its own (`Engine.siblings_apart`). The store
is handed nothing new, so what it could sort before it can sort now
(`Branch.Pruned.covers`).

The walks through the two plans are followed side by side, one step for
each way in which a forest can be pruned (`Branch.Pruned.answersBut`).
On the way to the dropped branch the tasks are kin, all others are the
same and joined to the same keys.
-/

namespace NestedQuery

namespace Store

/-- Visits to the branches of a host, or to those at the top, on a walk that a store serves, some
branches of which may have failed. -/
structure Visited (store : Store) (catalog : Catalog) (host? : Option Host) (branches : List Branch)
    (visits : List Visit) : Prop extends Host.Carries catalog host? branches visits where
  walked : ∃ input place progress final s,
    (Engine.ofCatalog catalog).Follows .query input branches place progress store visits final s

namespace Visited

variable {store : Store} {catalog : Catalog} {host? host?' : Option Host} {task : Task}
  {first last branches nested : List Branch} {visits visits' : List Visit}

theorem segments (h : store.Visited catalog host? branches visits) :
    visits.map Visit.segment? = branches.map Branch.segment? := by
  obtain ⟨_, _, _, _, _, hwalk⟩ := h.walked
  exact hwalk.segments

/-- Branches before others and these are visited from one and the same store. -/
theorem of_append (h : store.Visited catalog host? (first ++ last) visits)
    (hmemory : catalog.InMemory) :
    ∃ before after, visits = before ++ after ∧ store.Visited catalog host? first before ∧
      store.Visited catalog host? last after := by
  obtain ⟨_, _, _, _, _, hwalk⟩ := h.walked
  obtain ⟨before, after, _, _, _, rfl, hbefore, hafter⟩ := hwalk.of_append
  obtain ⟨hfirst, hlast⟩ := h.toCarries.of_append
  obtain ⟨rfl, -⟩ := hbefore.quiet hmemory hfirst
  exact ⟨before, after, rfl, ⟨hfirst, _, _, _, _, _, hbefore⟩, ⟨hlast, _, _, _, _, _, hafter⟩⟩

/-- The same branches are visited alike below hosts that agree. -/
theorem leaves (h : store.Visited catalog host? branches visits)
    (h' : store.Visited catalog host?' branches visits') (hagree : Host.Agree host? host?') :
    List.Forall₂ Visit.Leaves visits visits' := by
  obtain ⟨_, _, _, _, _, hwalk⟩ := h.walked
  obtain ⟨_, _, _, _, _, hwalk'⟩ := h'.walked
  have hsteady : (Engine.ofCatalog catalog).registry.Steady .query :=
    Engine.steady_ofCatalog catalog (List.mem_cons_self ..)
  exact (hwalk.alike hsteady hwalk' hagree h.toReceives h'.toReceives).2.2.leaves

/-- One branch is visited: it failed, or the store has nothing for it, or what the store has for it
is kept and the branches nested in it are visited. -/
theorem exists_visit (h : store.Visited catalog host? [.node task nested] visits)
    (hmemory : catalog.InMemory) :
    ∃ stop : Stop, stop.task = task ∧
      ((task.isFailed || (store.select (task.joinedTo host?)).isAbsent) = true ∧
          (∃ fault, visits = [.missed stop fault]) ∨
        (task.isFailed || (store.select (task.joinedTo host?)).isAbsent) = false ∧
          ∃ inner, visits = [.kept stop (store.select (task.joinedTo host?)) inner] ∧
            store.Visited catalog (some (stop.host (store.select (task.joinedTo host?)))) nested
              inner) := by
  obtain ⟨_, _, _, _, _, hwalk⟩ := h.walked
  have hsound := h.sound task (by simp)
  cases hwalk with
  | missed hattempt hrest =>
    cases hrest
    obtain ⟨-, hresult⟩ := Engine.attempt_below hmemory hsound h.head hattempt
    split at hresult
    · next habsent => exact ⟨_, rfl, .inl ⟨habsent, _, rfl⟩⟩
    · cases hresult
  | kept hattempt hinner hrest =>
    cases hrest
    obtain ⟨rfl, hresult⟩ := Engine.attempt_below hmemory hsound h.head hattempt
    split at hresult
    · cases hresult
    · next hpresent =>
      obtain rfl := Except.ok.inj hresult
      exact ⟨_, rfl, .inr ⟨eq_false_of_ne_true hpresent, _, rfl,
        hinner.carries h.toCarries h.head.1.keys, _, _, _, _, _, hinner⟩⟩

/-- What is nested in a task joins to columns that the task indexes. -/
theorem referencedKey_mem {host : Host} (h : store.Visited catalog (some host) branches visits) :
    ∀ visit ∈ visits, ∀ link ∈ visit.stop.task.link, link.referencedKey ∈ host.task.joinColumns := by
  intro visit hvisit link hlink
  obtain ⟨_, _, _, _, _, hwalk⟩ := h.walked
  obtain ⟨branch, hbranch, hroot⟩ := hwalk.root_of_mem hvisit
  obtain ⟨found, hfound, -, hreferenced, -⟩ := (hroot ▸ Branch.root_below h.fits hbranch).link
  obtain rfl := Option.some.inj (hfound.symm.trans hlink)
  exact hreferenced

end Visited

end Store

/-! ## Two forests, one without a branch -/

namespace Visit

variable {key : String} {visits : List Visit}

/-- Visits under a key put nothing into a record that is seen without the key. -/
theorem erase_stitchAll (hkeys : ∀ visit ∈ visits, visit.segment? = some key) (host : Host)
    (position : Nat) (record : Record) :
    Keyed.erase (stitchAll host visits position record) key = Keyed.erase record key := by
  induction visits with
  | nil => rfl
  | cons visit rest ih =>
    obtain ⟨hvisit, hrest⟩ := List.forall_mem_cons.1 hkeys
    rw [← ih hrest]
    show Keyed.erase (visit.stitchAt host visit.final position (stitchAll host rest position record))
      key = _
    unfold stitchAt
    split
    · rfl
    · split
      · exact Record.erase_writeInto hvisit _ _
      · rfl

/-- And nothing into the data tree. -/
theorem forget_collected_under (hkeys : ∀ visit ∈ visits, visit.segment? = some key)
    (record : Record) :
    (visits.foldl collectInto (.obj record)).forget key [] = (Json.obj record).forget key [] := by
  induction visits generalizing record with
  | nil => rfl
  | cons visit rest ih =>
    obtain ⟨hvisit, hrest⟩ := List.forall_mem_cons.1 hkeys
    rw [List.foldl_cons, collectInto_obj, ih hrest]
    exact congrArg Json.obj (Record.erase_writeInto hvisit record _)

end Visit

/-- What a store answers to two forests, below hosts that agree, is the same where a key is
forgotten. -/
structure Store.AnswersBut (store : Store) (catalog : Catalog) (key : String)
    (paths : List (List String)) (branches branches' : List Branch) : Prop where
  sameBut : ∀ {host? host?' : Option Host} {visits visits' : List Visit},
    store.Visited catalog host? branches visits → store.Visited catalog host?' branches' visits' →
    Host.Agree host? host?' → Visit.SameBut key paths visits visits'

namespace Store

variable {store : Store} {catalog : Catalog} {key : String} {paths : List (List String)}
  {branches branches' nested nested' : List Branch} {task other : Task}

theorem answersBut_self (store : Store) (catalog : Catalog) (key : String)
    (paths : List (List String)) (branches : List Branch) :
    store.AnswersBut catalog key paths branches branches where
  sameBut := fun h h' hagree => Visit.sameBut_of_leaves (h.leaves h' hagree)

/-- The branches before and behind others answer alike, and do not get in the way. -/
theorem AnswersBut.among (hmemory : catalog.InMemory)
    (h : store.AnswersBut catalog key paths branches branches')
    (hsegment : ∃ branch ∈ branches, branch.segment? = Record.forgotten? key paths)
    (before after : List Branch) :
    store.AnswersBut catalog key paths (before ++ (branches ++ after))
      (before ++ (branches' ++ after)) where
  sameBut := by
    intro _ _ _ _ hall hall' hagree
    have hnodup := hall.apart.nodup
    obtain ⟨first, _, rfl, hfirst, hothers⟩ := hall.of_append hmemory
    obtain ⟨middle, last, rfl, hmiddle, hlast⟩ := hothers.of_append hmemory
    obtain ⟨first', _, rfl, hfirst', hothers'⟩ := hall'.of_append hmemory
    obtain ⟨middle', last', rfl, hmiddle', hlast'⟩ := hothers'.of_append hmemory
    -- the branch of the forgotten key is among those in the middle
    obtain ⟨branch, hbranch, hforgotten⟩ := hsegment
    rw [List.map_append, List.map_append, List.nodup_append, List.nodup_append] at hnodup
    obtain ⟨-, ⟨-, -, hapartLast⟩, hapartFirst⟩ := hnodup
    have hmem : Record.forgotten? key paths ∈ branches.map Branch.segment? :=
      hforgotten ▸ List.mem_map_of_mem hbranch
    refine (h.sameBut hmiddle hmiddle' hagree).among (hfirst.leaves hfirst' hagree)
      (hlast.leaves hlast' hagree) (fun visit hvisit => ?_) fun visit hvisit heq => ?_
    · exact hapartFirst _ (hfirst.segments ▸ List.mem_map_of_mem hvisit) _
        (List.mem_append_left _ hmem)
    · exact hapartLast _ hmem _ (hlast.segments ▸ List.mem_map_of_mem hvisit) heq.symm

/-- What is nested in kin is answered below hosts that agree. -/
theorem AnswersBut.node (hmemory : catalog.InMemory) (hkin : task.Kin other)
    {path : List String} (hpath : task.path.keys = path)
    (h : store.AnswersBut catalog key paths nested nested') :
    store.AnswersBut catalog key (path :: paths) [.node task nested] [.node other nested'] where
  sameBut := by
    intro _ _ _ _ hvisited hvisited' hagree
    have hsound := hvisited.sound task (by simp)
    have hsound' := hvisited'.sound other (by simp)
    have hbelow := Branch.root_below hvisited.fits (List.mem_singleton_self _)
    have hbelow' := Branch.root_below hvisited'.fits (List.mem_singleton_self _)
    obtain ⟨rows, hrows, hrows'⟩ := hkin.exists_rows hagree hbelow hbelow' store
    obtain ⟨stop, rfl, hvisit⟩ := hvisited.exists_visit hmemory
    obtain ⟨stop', rfl, hvisit'⟩ := hvisited'.exists_visit hmemory
    rw [hrows, Outcome.isAbsent_mapRecords] at hvisit
    rw [hrows', Outcome.isAbsent_mapRecords, hkin.isFailed_eq] at hvisit'
    rcases hvisit with ⟨habsent, fault, rfl⟩ | ⟨hpresent, inner, rfl, hinner⟩
    · rcases hvisit' with ⟨-, fault', rfl⟩ | ⟨hpresent, -⟩
      · exact (Visit.leavesBut_missed hkin fault fault').sameBut hpath
      · exact absurd habsent (by simp [hpresent])
    · rcases hvisit' with ⟨habsent, -⟩ | ⟨-, inner', rfl, hinner'⟩
      · exact absurd habsent (by simp [hpresent])
      · obtain ⟨hunfailed, -⟩ := Bool.or_eq_false_iff.1 hpresent
        have hsound := hsound hunfailed
        have hsound' := hsound' (hkin.isFailed_eq.trans hunfailed)
        have hsame := h.sameBut hinner hinner' fun column _ hcolumn => congrArg some
          (hkin.index_eq hsound hsound' (hcolumn _ rfl) rows)
        exact (Visit.leavesBut_kept hkin hsound hsound' hbelow'.localKey_mem rows hsame
          hinner'.referencedKey_mem).sameBut hpath

/-- Writes under the forgotten key are not seen. -/
theorem answersBut_under (hkeys : ∀ branch ∈ branches, branch.segment? = some key)
    (hkeys' : ∀ branch ∈ branches', branch.segment? = some key) :
    store.AnswersBut catalog key [] branches branches' where
  sameBut := by
    intro _ _ visits visits' h h' _
    have hvisits : ∀ {host? : Option Host} {branches : List Branch} {visits : List Visit},
        (∀ branch ∈ branches, branch.segment? = some key) →
        store.Visited catalog host? branches visits → ∀ visit ∈ visits, visit.segment? = some key := by
      intro _ _ visits hkeys hvisited visit hmem
      have hsegment : visit.segment? ∈ visits.map Visit.segment? := List.mem_map_of_mem hmem
      rw [hvisited.segments] at hsegment
      obtain ⟨branch, hbranch, hsame⟩ := List.mem_map.1 hsegment
      exact hsame ▸ hkeys branch hbranch
    refine ⟨fun _ position record => ?_, fun record => ?_⟩
    · show Keyed.erase (Visit.stitchAll _ visits position record) key =
        Keyed.erase (Visit.stitchAll _ visits' position record) key
      rw [Visit.erase_stitchAll (hvisits hkeys h), Visit.erase_stitchAll (hvisits hkeys' h')]
    · rw [Visit.forget_collected_under (hvisits hkeys h),
        Visit.forget_collected_under (hvisits hkeys' h')]

end Store

namespace Branch.Pruned

variable {key : String} {paths : List (List String)} {branches branches' : List Branch}

/-- A forest is pruned under the key that is forgotten, if at all. -/
theorem eq_or_exists_segment (h : Pruned key paths branches branches') :
    branches = branches' ∨ ∃ branch ∈ branches, branch.segment? = Record.forgotten? key paths := by
  induction h with
  | lost => exact .inl rfl
  | among before after _ ih =>
    rcases ih with rfl | ⟨branch, hmem, hsegment⟩
    · exact .inl rfl
    · exact .inr ⟨branch, List.mem_append_right _ (List.mem_append_left _ hmem), hsegment⟩
  | inside hpath _ _ => exact .inr ⟨_, List.mem_singleton_self _, congrArg List.head? hpath⟩
  | @here path first last ruled dropped hpath _ =>
    refine .inr ⟨_, List.mem_singleton_self _, ?_⟩
    have hwidened : (widen ruled (first ++ dropped :: last)).path.keys = path := by
      rw [widen_path, hpath]
    exact congrArg List.head? hwidened

/-- **What a store answers to a forest without a branch** is the same where the key of the branch is
forgotten. -/
theorem answersBut {catalog : Catalog} (hmemory : catalog.InMemory)
    (h : Pruned key paths branches branches') (store : Store) :
    store.AnswersBut catalog key paths branches branches' := by
  induction h with
  | lost => exact store.answersBut_self catalog key _ _
  | among before after hpruned ih =>
    rcases hpruned.eq_or_exists_segment with rfl | hsegment
    · exact store.answersBut_self catalog key _ _
    · exact ih.among hmemory hsegment before after
  | @inside path paths nested nested' task hpath hpruned ih =>
    exact ih.node hmemory (kin_grow task nested nested') hpath
  | @here path first last ruled dropped hpath hkey =>
    have hnested : store.AnswersBut catalog key [] (first ++ ([dropped] ++ last)) (first ++ ([] ++ last)) :=
      (Store.answersBut_under (by simpa using hkey) (by simp)).among hmemory
        ⟨dropped, List.mem_singleton_self _, hkey⟩ first last
    have hwidened : (widen ruled (first ++ dropped :: last)).path.keys = path := by
      rw [widen_path, hpath]
    exact hnested.node hmemory (kin_dropped ruled first last dropped) hwidened

/-- **A store is handed nothing new** for a forest without a branch. -/
theorem covers {catalog : Catalog} {store : Store} {host? host?' : Option Host}
    (h : Pruned key paths branches branches') (hagree : Host.Agree host? host?')
    (hseats : Host.Seats catalog host? branches) (hseats' : Host.Seats catalog host?' branches') :
    store.Covers host? host?' branches branches' := by
  induction h generalizing host? host?' with
  | lost => exact Store.covers_self hagree hseats hseats'
  | among before after _ ih =>
    obtain ⟨hbefore, hothers⟩ := hseats.of_append
    obtain ⟨hbefore', hothers'⟩ := hseats'.of_append
    exact (Store.covers_self hagree hbefore hbefore').append
      ((ih hagree hothers.of_append.1 hothers'.of_append.1).append
        (Store.covers_self hagree hothers.of_append.2 hothers'.of_append.2))
  | @inside path paths nested nested' task _ _ ih =>
    exact .node (kin_grow task nested nested') hagree hseats hseats' ih
  | @here path first last ruled dropped _ _ =>
    refine .node (kin_dropped ruled first last dropped) hagree hseats hseats'
      fun hagree hbelow hbelow' => ?_
    obtain ⟨hfirst, hothers⟩ := hbelow.of_append
    obtain ⟨hfirst', hlast'⟩ := hbelow'.of_append
    exact (Store.covers_self hagree hfirst hfirst').append
      ((Store.covers_self hagree hothers.tail hlast').behind dropped)

end Branch.Pruned

/-! ## Requests -/

/-- What was answered without a nested node, beside what was answered with it: the same where the key
of the node is forgotten in the records of the node around it, and all reports but those of the
node's own. -/
structure Resolution.Spared (full less : Resolution) (key : String) (paths : List (List String))
    (own : List String) : Prop where
  data : full.data.forget key paths = less.data.forget key paths
  errors : ∃ before after, full.errors = before ++ own ++ after ∧ less.errors = before ++ after

namespace Engine

variable {catalog : Catalog}

/-- A query that is served from memory gives the tree of its visits, and reports what its plan
reports. -/
theorem exists_visited (haccepted : catalog.Accepted) (hmemory : catalog.InMemory) {request : Record}
    (hrequest : (Json.obj request).Distinct) (store : Store) :
    ∃ visits, store.Visited catalog none (catalog.forest request) visits ∧
      (((ofCatalog catalog).run .query request).run store).1 =
        ⟨visits.foldl Visit.collectInto (.obj []), (catalog.plan request).errors⟩ := by
  obtain ⟨visits, _, _, hwalk, hrun, -⟩ := (ofCatalog catalog).run_reports .query request store
  have hcarries : Host.Carries catalog none (catalog.forest request) visits :=
    .forest haccepted hrequest visits
  have hquiet : Visit.reports visits = [] := by
    rw [Visit.reports, (hwalk.quiet hmemory hcarries).2, List.map_nil]
  refine ⟨visits, ⟨hcarries, _, _, _, _, _, hwalk⟩, ?_⟩
  rw [hrun, hquiet, List.append_nil]
  rfl

/-- **Siblings do not interfere.** A request without one nested node is answered, and reports, as the
one with it, but for what stands under its key in the records of the node around it, and for what it
reports itself. If what the one sorts is ranked by the columns it is sorted by, then so is what the
other sorts; nothing is said of a run that a sort of other rows may stop. -/
theorem siblings_apart (haccepted : catalog.Accepted) (hmemory : catalog.InMemory) {request : Record}
    (hrequest : (Json.obj request).Distinct) {address : List String} {site : Catalog.Site}
    (hreaches : catalog.Reaches none request address site)
    (hgrows : (catalog.compileNested site.model site.task site.fields).fault = none) {key : String}
    {value : Json} (hkey : Keyed.get? site.fields key = some value)
    (hrule : catalog.hasRule site.model key = false) {store : Store}
    (hranked : Ranked catalog .query request store) :
    Ranked catalog .query (request.prune address key) store ∧
    ∃ child link, catalog.resolveNested site.model key value = .ok (child, link) ∧
      (((ofCatalog catalog).run .query request).run store).1.Spared
        (((ofCatalog catalog).run .query (request.prune address key)).run store).1 key site.paths
        (catalog.compile key child (some site.task) (some link) value).2 := by
  -- the key names a node, as all goes well with the node around it
  have hmem : (key, value) ∈ catalog.nestedFields site.model site.fields :=
    List.mem_filter.2 ⟨Keyed.mem_of_get? hkey, by simp [hrule]⟩
  obtain ⟨found, hfound⟩ := Catalog.opened_of_fault hgrows _ hmem
  obtain ⟨child, link, hchild⟩ : ∃ child link,
      catalog.resolveNested site.model key value = .ok (child, link) := by
    cases hresolved : catalog.resolveNested site.model key value with
    | ok resolved => exact ⟨resolved.1, resolved.2, rfl⟩
    | error fault => simp [Catalog.opens, hresolved] at hfound
  -- the plans of the two requests
  obtain ⟨branches', before, after, hreports, hcompiles, hpruned⟩ :=
    hreaches.prunesTo hrequest hgrows hkey hrule hchild (catalog.compiles_forest request)
  have hdistinct : (Json.obj (request.prune address key)).Distinct :=
    Record.forget_distinct key _ hrequest
  obtain ⟨rfl, herrors⟩ := (catalog.compiles_forest (request.prune address key)).unique hcompiles
  -- the walks through them
  obtain ⟨visits, hvisited, hrun⟩ := exists_visited haccepted hmemory hrequest store
  obtain ⟨visits', hvisited', hrun'⟩ := exists_visited haccepted hmemory hdistinct store
  refine ⟨(ranked_iff_handed haccepted hmemory hdistinct store).2 fun handed hhanded => ?_, child,
    link, hchild, ?_⟩
  · obtain ⟨found, hfound, hrows⟩ :=
      hpruned.covers Host.agree_none hvisited.toSeats hvisited'.toSeats handed hhanded
    exact hrows.ranks ((ranked_iff_handed haccepted hmemory hrequest store).1 hranked found hfound)
  · have hsame := (hpruned.answersBut hmemory store).sameBut hvisited hvisited' Host.agree_none
    rw [hrun, hrun']
    exact ⟨hsame.collected [], before, after, hreports, herrors.symm⟩

end Engine

namespace Library

/-- Books with their authors, in two ways, one of which asks for what is not there. -/
def twice : Record := [("author", .obj [("publisher", .bool true)]), ("authors", .bool true)]

/-- Authors by name, from the last to the first, with such books. -/
def byName : Record := [("@field", .str "name"), ("@sort", .str "-name"), ("books", .obj twice)]

/-- The task of these authors, before anything is nested in it. -/
def writers : Task :=
  (catalog.applyRules author (.start ⟨author, true⟩ "authors" none none) byName).1

/-- The node of the books. -/
def works : Catalog.Site where
  model := book
  task := (catalog.applyRules book
    (.start ⟨book, true⟩ "books" (some writers) (book.link? author)) twice).1
  fields := twice
  paths := [["authors"], ["books"]]

end Library

theorem Engine.siblings_apart_library :
    (Json.obj [("authors", .obj Library.byName)]).Distinct ∧
    Library.catalog.Reaches none [("authors", .obj Library.byName)] ["authors", "books"]
      Library.works ∧
    (Library.catalog.compileNested Library.book Library.works.task Library.twice).fault = none ∧
    Keyed.get? Library.twice "author" = some (.obj [("publisher", .bool true)]) ∧
    Library.catalog.hasRule Library.book "author" = false ∧
    Ranked Library.catalog .query [("authors", .obj Library.byName)] Library.stocked ∧
    Ranked Library.catalog .query (Record.prune [("authors", .obj Library.byName)]
      ["authors", "books"] "author") Library.stocked ∧
    ∃ child link, Library.catalog.resolveNested Library.book "author"
        (.obj [("publisher", .bool true)]) = .ok (child, link) ∧
      (((ofCatalog Library.catalog).run .query [("authors", .obj Library.byName)]).run
        Library.stocked).1.Spared
        (((ofCatalog Library.catalog).run .query (Record.prune [("authors", .obj Library.byName)]
          ["authors", "books"] "author")).run Library.stocked).1 "author" [["authors"], ["books"]]
        (Library.catalog.compile "author" child (some Library.works.task) (some link)
          (.obj [("publisher", .bool true)])).2 := by
  have hdistinct : (Json.obj [("authors", .obj Library.byName)]).Distinct := by
    simp [Library.byName, Library.twice, Keyed.keys, Json.Distinct, Json.DistinctFields]
  have hreaches : Library.catalog.Reaches none [("authors", .obj Library.byName)]
      ["authors", "books"] Library.works := by
    have hwriters : Library.catalog.Enters none [("authors", .obj Library.byName)] "authors"
        Library.byName Library.author Library.writers :=
      ⟨[], [], .start ⟨Library.author, true⟩ "authors" none none, rfl, by simp, rfl,
        Prod.ext rfl (by decide +kernel)⟩
    refine .inside hwriters (.here ⟨[], [], _, rfl, by simp, rfl, ?_⟩)
    exact Prod.ext rfl (by decide +kernel)
  have hgrows : (Library.catalog.compileNested Library.book Library.works.task
      Library.twice).fault = none := by decide +kernel
  have hrule : Library.catalog.hasRule Library.book "author" = false := by decide +kernel
  have hranked := Library.ranked_stocked .query [("authors", .obj Library.byName)]
  exact ⟨hdistinct, hreaches, hgrows, rfl, hrule, hranked, siblings_apart Library.accepted
    Library.inMemory hdistinct hreaches hgrows rfl hrule hranked⟩

end NestedQuery
