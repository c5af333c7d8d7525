import NestedQuery.Proofs.Plan.Fitting
import NestedQuery.Proofs.Schema.Accepted
/-!
# The plan as a flattened forest

A plan is a list, and the engine reads the tree off it by counting:
behind a task stand the tasks nested in it, as many as it says. This
file shows that the count is right everywhere (`preorder_plan`), so that
skipping by it skips a subtree, and that the paths tell the same tree.

The bridge is `Branch.placedOf`, which lists the tasks of a forest with
their places and, for each, the tasks it is nested in. Of two tasks at
different places the earlier one either has the later one nested in it,
or ends in front of it and their paths part (`placed_within_or_apart`);
ranges, nesting and prefixes are all read off this one dichotomy.
-/

namespace NestedQuery

/-! ## Tasks at their places -/

/-- A task at its place, with the tasks it is nested in and their places, nearest first. -/
structure Placed where
  place : Nat
  task : Task
  above : List (Nat × Task)

/-- The place and the task. -/
def Placed.entry (placed : Placed) : Nat × Task := (placed.place, placed.task)

namespace Branch

mutual

/-- The tasks of a branch at their places, the first of which is given. -/
def placed (above : List (Nat × Task)) (place : Nat) : Branch → List Placed
  | node task nested =>
    ⟨place, task, above⟩ :: placedOf ((place, task) :: above) (place + 1) nested

/-- The tasks of several branches at their places. -/
def placedOf (above : List (Nat × Task)) (place : Nat) : List Branch → List Placed
  | [] => []
  | branch :: rest =>
    branch.placed above place ++ placedOf above (place + branch.tasks.length) rest

end

variable {above : List (Nat × Task)} {place : Nat} {branches : List Branch} {p q : Placed}

@[simp] theorem placedOf_nil : placedOf above place [] = [] := by
  rw [placedOf]

@[simp] theorem placedOf_node (task : Task) (nested rest : List Branch) :
    placedOf above place (.node task nested :: rest) =
      ⟨place, task, above⟩ :: (placedOf ((place, task) :: above) (place + 1) nested ++
        placedOf above (place + 1 + (tasksOf nested).length) rest) := by
  rw [placedOf, placed, tasks, List.cons_append, List.length_cons, Nat.add_right_comm, Nat.add_assoc]

theorem map_task_placedOf : (placedOf above place branches).map Placed.task = tasksOf branches := by
  induction branches using forest_induction generalizing above place with
  | nil => simp
  | node task nested rest ihnested ihrest => simp [ihnested, ihrest]

theorem map_place_placedOf : (placedOf above place branches).map Placed.place =
    List.range' place (tasksOf branches).length := by
  induction branches using forest_induction generalizing above place with
  | nil => simp
  | node task nested rest ihnested ihrest =>
    rw [placedOf_node, List.map_cons, List.map_append, ihnested, ihrest, List.range'_append_1,
      tasksOf_node, List.length_cons, List.length_append, List.range'_succ]

/-- The tasks of a list and the placed ones are the same. -/
theorem getElem?_tasksOf_iff {i : Nat} {task : Task} :
    (tasksOf branches)[i]? = some task ↔
      ∃ p ∈ placedOf above place branches, p.place = place + i ∧ p.task = task := by
  have hplace : ∀ {j : Nat} {p : Placed}, (placedOf above place branches)[j]? = some p →
      p.place = place + j := by
    intro j p hp
    have hmap : ((placedOf above place branches).map Placed.place)[j]? = some p.place := by
      rw [List.getElem?_map, hp, Option.map_some]
    rw [map_place_placedOf] at hmap
    obtain ⟨hj, hvalue⟩ := List.getElem?_eq_some_iff.1 hmap
    rw [List.getElem_range'] at hvalue
    omega
  have htasks : (placedOf above place branches).map Placed.task = tasksOf branches :=
    map_task_placedOf
  rw [← htasks, List.getElem?_map]
  constructor
  · intro h
    obtain ⟨p, hp, htask⟩ := Option.map_eq_some_iff.1 h
    exact ⟨p, List.mem_of_getElem? hp, hplace hp, htask⟩
  · rintro ⟨p, hp, hpi, rfl⟩
    obtain ⟨j, hj⟩ := List.getElem?_of_mem hp
    obtain rfl : j = i := by
      have := hplace hj
      omega
    rw [hj, Option.map_some]

/-! ## What a task is nested in -/

/-- The place of a task is among those of its forest. -/
theorem place_bounds (hp : p ∈ placedOf above place branches) :
    place ≤ p.place ∧ p.place < place + (tasksOf branches).length := by
  have hmem := List.mem_map_of_mem (f := Placed.place) hp
  rw [map_place_placedOf, List.mem_range'_1] at hmem
  exact hmem

/-- What a task is nested in was there before, or is a task of the forest in front of it. -/
theorem above_split (hp : p ∈ placedOf above place branches) :
    ∃ new, p.above = new ++ above ∧
      ∀ x ∈ new, x.1 < p.place ∧ ∃ a ∈ placedOf above place branches, a.entry = x := by
  induction branches using forest_induction generalizing above place with
  | nil => simp at hp
  | node task nested rest ihnested ihrest =>
    rw [placedOf_node, List.mem_cons, List.mem_append] at hp
    rcases hp with rfl | hp | hp
    · exact ⟨[], rfl, by simp⟩
    · obtain ⟨new, hnew, hmem⟩ := ihnested hp
      have hbounds := place_bounds hp
      refine ⟨new ++ [(place, task)], by simp [hnew], fun x hx => ?_⟩
      rcases List.mem_append.1 hx with hx | hx
      · obtain ⟨hlt, a, ha, hax⟩ := hmem x hx
        exact ⟨hlt, a, by simp [ha], hax⟩
      · obtain rfl := List.mem_singleton.1 hx
        exact ⟨by simp only; omega, ⟨place, task, above⟩, by simp, rfl⟩
    · obtain ⟨new, hnew, hmem⟩ := ihrest hp
      refine ⟨new, hnew, fun x hx => ?_⟩
      obtain ⟨hlt, a, ha, hax⟩ := hmem x hx
      exact ⟨hlt, a, by simp [ha], hax⟩

/-- Nearest first: the places of what a task is nested in fall. -/
theorem above_pairwise (habove : above.Pairwise fun x y => y.1 < x.1)
    (hplace : ∀ x ∈ above, x.1 < place) (hp : p ∈ placedOf above place branches) :
    p.above.Pairwise fun x y => y.1 < x.1 := by
  induction branches using forest_induction generalizing above place with
  | nil => simp at hp
  | node task nested rest ihnested ihrest =>
    rw [placedOf_node, List.mem_cons, List.mem_append] at hp
    rcases hp with rfl | hp | hp
    · exact habove
    · refine ihnested (List.pairwise_cons.2 ⟨hplace, habove⟩) (fun x hx => ?_) hp
      rcases List.mem_cons.1 hx with rfl | hx
      · exact Nat.lt_succ_self _
      · exact Nat.lt_succ_of_lt (hplace x hx)
    · exact ihrest habove (fun x hx => by have := hplace x hx; omega) hp

variable {catalog : Catalog}

/-- A task stands below the nearest task that it is nested in. -/
theorem below_above (hfits : Fits catalog (above.head?.map Prod.snd) branches)
    (hp : p ∈ placedOf above place branches) :
    p.task.Below catalog (p.above.head?.map Prod.snd) := by
  induction branches using forest_induction generalizing above place with
  | nil => simp at hp
  | node task nested rest ihnested ihrest =>
    rw [placedOf_node, List.mem_cons, List.mem_append] at hp
    cases hfits with
    | node hbelow _ hnested hrest =>
      rcases hp with rfl | hp | hp
      · exact hbelow
      · have hnested : Fits catalog (((place, task) :: above).head?.map Prod.snd) nested := hnested
        exact ihnested hnested hp
      · exact ihrest hrest hp

/-- What a task counts lies inside the forest. -/
theorem end_lt {parent : Option Task} (hfits : Fits catalog parent branches)
    (hp : p ∈ placedOf above place branches) :
    p.place + p.task.childCount < place + (tasksOf branches).length := by
  induction branches using forest_induction generalizing above place parent with
  | nil => simp at hp
  | node task nested rest ihnested ihrest =>
    rw [placedOf_node, List.mem_cons, List.mem_append] at hp
    rw [tasksOf_node, List.length_cons, List.length_append]
    cases hfits with
    | node _ hcount hnested hrest =>
      rcases hp with rfl | hp | hp
      · simp only
        omega
      · have := ihnested hnested hp
        omega
      · have := ihrest hrest hp
        omega

/-- The path of what a task is nested in is a proper start of its own. -/
theorem full_prefix (hfits : Fits catalog (above.head?.map Prod.snd) branches)
    (habove : ∀ x ∈ above, ∀ parent ∈ above.head?, x.2.path.full <+: parent.2.path.full)
    (hp : p ∈ placedOf above place branches) {x : Nat × Task} (hx : x ∈ p.above) :
    x.2.path.full <+: p.task.path.full ∧ x.2.path.full ≠ p.task.path.full := by
  induction branches using forest_induction generalizing above place with
  | nil => simp at hp
  | node task nested rest ihnested ihrest =>
    rw [placedOf_node, List.mem_cons, List.mem_append] at hp
    cases hfits with
    | node hbelow _ hnested hrest =>
      -- the path of the root goes on from that of the nearest task above
      have hroot : ∀ x ∈ above, x.2.path.full <+: task.path.full ∧
          x.2.path.full ≠ task.path.full := by
        intro x hx
        cases above with
        | nil => simp at hx
        | cons head tail =>
          have hhead := habove x hx head rfl
          have hbelow : task.Below catalog (some head.2) := hbelow
          refine ⟨hhead.trans hbelow.full_start, fun heq => hbelow.keys ?_⟩
          rw [heq, hbelow.full_eq] at hhead
          have := hhead.length_le
          rw [List.length_append] at this
          exact List.length_eq_zero_iff.1 (by omega)
      rcases hp with rfl | hp | hp
      · exact hroot x hx
      · have hnested : Fits catalog (((place, task) :: above).head?.map Prod.snd) nested := hnested
        refine ihnested hnested (fun y hy parent hparent => ?_) hp
        obtain rfl := Option.some.inj hparent
        rcases List.mem_cons.1 hy with rfl | hy
        · exact List.prefix_rfl
        · exact (hroot y hy).1
      · exact ihrest hrest habove hp

/-! ## Of two tasks at different places -/

/-- Neither path is a start of the other. -/
def Parted (path other : List String) : Prop := ¬ path <+: other ∧ ¬ other <+: path

/-- Paths that go on from parted ones are parted. -/
theorem Parted.extend {path other path' other' : List String} (h : Parted path other)
    (hpath : path <+: path') (hother : other <+: other') : Parted path' other' := by
  constructor
  · intro hle
    rcases List.prefix_or_prefix_of_prefix (hpath.trans hle) hother with hstart | hstart
    · exact h.1 hstart
    · exact h.2 hstart
  · intro hle
    rcases List.prefix_or_prefix_of_prefix (hother.trans hle) hpath with hstart | hstart
    · exact h.2 hstart
    · exact h.1 hstart

/-- The paths of siblings part at their first segments. -/
theorem parted_of_siblings {parent : Option Task} {task other : Task}
    (htask : task.Below catalog parent) (hother : other.Below catalog parent)
    (hsegment : other.path.keys.head? ≠ task.path.keys.head?) :
    Parted task.path.full other.path.full := by
  rw [NodePath.full, NodePath.full, htask.parentKeys, hother.parentKeys]
  have hne : ∀ {keys keys' : List String}, keys ≠ [] → keys' ≠ [] → keys'.head? ≠ keys.head? →
      ¬ keys <+: keys' := by
    intro keys keys' hkeys hkeys' hhead hle
    cases keys with
    | nil => exact hkeys rfl
    | cons a as =>
      cases keys' with
      | nil => exact hkeys' rfl
      | cons b bs => exact hhead (by simp [(List.cons_prefix_cons.1 hle).1])
  constructor
  · rw [List.prefix_append_right_inj]
    exact hne htask.keys hother.keys hsegment
  · rw [List.prefix_append_right_inj]
    exact hne hother.keys htask.keys hsegment.symm

/-- Every path in a forest goes on from that of one of its roots. -/
theorem root_prefix {parent : Option Task} (hfits : Fits catalog parent branches)
    (hp : p ∈ placedOf above place branches) :
    ∃ branch ∈ branches, branch.root.Below catalog parent ∧
      branch.root.path.full <+: p.task.path.full := by
  induction branches using forest_induction generalizing above place parent with
  | nil => simp at hp
  | node task nested rest ihnested ihrest =>
    rw [placedOf_node, List.mem_cons, List.mem_append] at hp
    cases hfits with
    | node hbelow _ hnested hrest =>
      rcases hp with rfl | hp | hp
      · exact ⟨.node _ nested, List.mem_cons_self .., hbelow, List.prefix_rfl⟩
      · obtain ⟨branch, hbranch, hbranchBelow, hprefix⟩ := ihnested hnested hp
        exact ⟨.node task nested, List.mem_cons_self .., hbelow,
          hbranchBelow.full_start.trans hprefix⟩
      · obtain ⟨branch, hbranch, hrest⟩ := ihrest hrest hp
        exact ⟨branch, List.mem_cons_of_mem _ hbranch, hrest⟩

/-- The tasks of a branch end with it, and their paths go on from that of its root. -/
theorem within_branch {task : Task} {nested : List Branch}
    (hcount : task.childCount = (tasksOf nested).length) (hnested : Fits catalog (some task) nested)
    (hp : p = ⟨place, task, above⟩ ∨ p ∈ placedOf ((place, task) :: above) (place + 1) nested) :
    place ≤ p.place ∧ p.place + p.task.childCount < place + 1 + (tasksOf nested).length ∧
      task.path.full <+: p.task.path.full := by
  rcases hp with rfl | hp
  · exact ⟨Nat.le_refl _, by simp only; omega, List.prefix_rfl⟩
  · have hend := end_lt hnested hp
    have hstart := (place_bounds hp).1
    obtain ⟨branch, -, hbranchBelow, hprefix⟩ := root_prefix hnested hp
    exact ⟨by omega, by omega, hbranchBelow.full_start.trans hprefix⟩

/-- What stands behind a branch is apart from all tasks of the branch. -/
theorem behind_branch {parent : Option Task} {task : Task} {nested rest : List Branch}
    (hbelow : task.Below catalog parent) (hcount : task.childCount = (tasksOf nested).length)
    (hnested : Fits catalog (some task) nested) (hrest : Fits catalog parent rest)
    (hsegment : ∀ branch ∈ rest, branch.root.path.keys.head? ≠ task.path.keys.head?)
    (habove : ∀ x ∈ above, x.1 < place)
    (hp : p = ⟨place, task, above⟩ ∨ p ∈ placedOf ((place, task) :: above) (place + 1) nested)
    (hq : q ∈ placedOf above (place + 1 + (tasksOf nested).length) rest) :
    p.entry ∉ q.above ∧ p.place + p.task.childCount < q.place ∧
      Parted p.task.path.full q.task.path.full := by
  have hqplace := (place_bounds hq).1
  obtain ⟨hstart, hend, hpath⟩ := within_branch hcount hnested hp
  refine ⟨fun hmem => ?_, by omega, ?_⟩
  · -- what stands above the later task is above the forest or later than the branch
    obtain ⟨new, hnew, hmemNew⟩ := above_split hq
    rw [hnew, List.mem_append] at hmem
    rcases hmem with hmem | hmem
    · obtain ⟨-, a, ha, heq⟩ := hmemNew _ hmem
      have haplace := (place_bounds ha).1
      have : a.place = p.place := congrArg Prod.fst heq
      omega
    · have := habove _ hmem
      simp only [Placed.entry] at this
      omega
  · obtain ⟨branch, hbranch, hbranchBelow, hprefix⟩ := root_prefix hrest hq
    exact (parted_of_siblings hbelow hbranchBelow (hsegment branch hbranch)).extend hpath hprefix

/-- **Within or apart.** Of two tasks at different places, the later one is nested in the earlier
one and ends no later, or it stands behind all that the earlier one counts and their paths part. -/
theorem placed_within_or_apart {parent : Option Task} (hfits : Fits catalog parent branches)
    (hapart : Apart branches) (habove : ∀ x ∈ above, x.1 < place)
    (hp : p ∈ placedOf above place branches) (hq : q ∈ placedOf above place branches)
    (hlt : p.place < q.place) :
    (p.entry ∈ q.above ∧ q.place + q.task.childCount ≤ p.place + p.task.childCount) ∨
      (p.entry ∉ q.above ∧ p.place + p.task.childCount < q.place ∧
        Parted p.task.path.full q.task.path.full) := by
  induction branches using forest_induction generalizing above place parent with
  | nil => simp at hp
  | node task nested rest ihnested ihrest =>
    rw [placedOf_node, List.mem_cons, List.mem_append] at hp hq
    cases hfits with
    | node hbelow hcount hnested hrest =>
      cases hapart with
      | node hsegment hapartNested hapartRest =>
        rcases hq with rfl | hq | hq
        · -- nothing stands in front of the root
          rcases hp with rfl | hp | hp
          · exact absurd hlt (Nat.lt_irrefl _)
          · have := (place_bounds hp).1
            simp only at hlt
            omega
          · have := (place_bounds hp).1
            simp only at hlt
            omega
        · rcases hp with rfl | hp | hp
          · obtain ⟨new, hnew, -⟩ := above_split hq
            have hend := end_lt hnested hq
            refine Or.inl ⟨?_, by simp only; omega⟩
            rw [hnew]
            exact List.mem_append_right _ (List.mem_cons_self ..)
          · refine ihnested hnested hapartNested (fun x hx => ?_) hp hq
            rcases List.mem_cons.1 hx with rfl | hx
            · exact Nat.lt_succ_self _
            · exact Nat.lt_succ_of_lt (habove x hx)
          · have hpplace := (place_bounds hp).1
            have hqplace := (place_bounds hq).2
            omega
        · rcases hp with rfl | hp | hp
          · exact Or.inr (behind_branch hbelow hcount hnested hrest hsegment habove (Or.inl rfl) hq)
          · exact Or.inr (behind_branch hbelow hcount hnested hrest hsegment habove (Or.inr hp) hq)
          · exact ihrest hrest hapartRest (fun x hx => by have := habove x hx; omega) hp hq

/-! ## Batches and roots -/

/-- A task may have several records if it, or a task it is nested in, stands for a list. -/
theorem isBatch_iff_above (hfits : Fits catalog (above.head?.map Prod.snd) branches)
    (habove : ∀ parent ∈ above.head?, (parent.2.batch.isBatch = true ↔
      ∃ x ∈ above, x.2.batch.isGroup = true))
    (hp : p ∈ placedOf above place branches) :
    p.task.batch.isBatch = true ↔
      p.task.batch.isGroup = true ∨ ∃ x ∈ p.above, x.2.batch.isGroup = true := by
  induction branches using forest_induction generalizing above place with
  | nil => simp at hp
  | node task nested rest ihnested ihrest =>
    rw [placedOf_node, List.mem_cons, List.mem_append] at hp
    cases hfits with
    | node hbelow _ hnested hrest =>
      have hroot : task.batch.isBatch = true ↔
          task.batch.isGroup = true ∨ ∃ x ∈ above, x.2.batch.isGroup = true := by
        rw [hbelow.isBatch, Bool.or_eq_true, hbelow.underBatch]
        cases above with
        | nil => simp
        | cons head tail => exact or_congr_right (habove head rfl)
      rcases hp with rfl | hp | hp
      · exact hroot
      · have hnested : Fits catalog (((place, task) :: above).head?.map Prod.snd) nested := hnested
        refine ihnested hnested (fun parent hparent => ?_) hp
        obtain rfl := Option.some.inj hparent
        rw [hroot, List.exists_mem_cons_iff]
      · exact ihrest hrest habove hp

/-- The root of a branch stands below the parent of the forest. -/
theorem root_below {parent : Option Task} (hfits : Fits catalog parent branches) {branch : Branch}
    (hmem : branch ∈ branches) : branch.root.Below catalog parent := by
  induction hfits with
  | nil => cases hmem
  | node hbelow _ _ _ _ ihrest =>
    rcases List.mem_cons.1 hmem with rfl | hmem
    · exact hbelow
    · exact ihrest hmem

/-- Below a parent all tasks are nested. -/
theorem isNested_of_mem {parent : Option Task} (hfits : Fits catalog parent branches)
    (hparent : parent.isSome) {task : Task} (hmem : task ∈ tasksOf branches) :
    task.isNested = true := by
  induction hfits with
  | nil => simp at hmem
  | node hbelow _ _ _ ihnested ihrest =>
    rw [tasksOf_node, List.mem_cons, List.mem_append] at hmem
    rcases hmem with rfl | hmem | hmem
    · rw [hbelow.isNested, hparent]
    · exact ihnested rfl hmem
    · exact ihrest hparent hmem

/-- The tasks that are not nested are the roots. -/
theorem filter_tasksOf (hfits : Fits catalog none branches) :
    (tasksOf branches).filter (fun task => !task.isNested) = branches.map root := by
  generalize hparent : (none : Option Task) = parent at hfits
  induction hfits with
  | nil => simp
  | @node _ task nested rest hbelow _ hnested _ _ ihrest =>
    subst hparent
    have hnone : (tasksOf nested).filter (fun task => !task.isNested) = [] :=
      List.filter_eq_nil_iff.2 fun task hmem => by simp [isNested_of_mem hnested rfl hmem]
    have hroot := hbelow.isNested
    rw [tasksOf_node, List.filter_cons_of_pos (by simp [hroot]), List.filter_append, hnone,
      ihrest rfl, List.nil_append, List.map_cons, root_node]

end Branch

/-! ## Preorder -/

/-- A place lies in the range of an earlier one: among the places that the task there counts. -/
def Encloses (tasks : List Task) (i j : Nat) : Prop :=
  ∃ task, tasks[i]? = some task ∧ i < j ∧ j ≤ i + task.childCount

/-- A list of tasks is a forest in preorder, with one tree for each of some keys. -/
structure Preorder (tasks : List Task) (keys : List String) : Prop where
  /-- No range goes beyond the list. -/
  bounded : ∀ {i : Nat} {task : Task}, tasks[i]? = some task → i + task.childCount < tasks.length
  /-- Ranges are nested or disjoint. -/
  laminar : ∀ {i j : Nat} {a b : Task}, tasks[i]? = some a → tasks[j]? = some b → i ≤ j →
    j + b.childCount ≤ i + a.childCount ∨ i + a.childCount < j
  /-- Outside all other ranges are the tasks that are not nested. -/
  outermost : ∀ {j : Nat} {b : Task}, tasks[j]? = some b →
    (b.isNested = false ↔ ∀ i, ¬ Encloses tasks i j)
  /-- Those are one for each key, in order. -/
  roots : (tasks.filter fun task => !task.isNested).map (fun task => task.path.full.head?) =
    keys.map some
  /-- A nested task has a nearest one around it, and stands below it. -/
  parent : ∀ {j : Nat} {b : Task}, tasks[j]? = some b → b.isNested = true →
    ∃ i a, tasks[i]? = some a ∧ Encloses tasks i j ∧ (∀ k, Encloses tasks k j → k ≤ i) ∧
      b.path.parentKeys = a.path.full ∧ b.batch.underBatch = a.batch.isBatch ∧ b.link.isSome
  /-- A task may have several records if it, or one around it, stands for a list. -/
  batch : ∀ {j : Nat} {b : Task}, tasks[j]? = some b → (b.batch.isBatch = true ↔
    b.batch.isGroup = true ∨ ∃ i a, tasks[i]? = some a ∧ Encloses tasks i j ∧ a.batch.isGroup = true)
  /-- No two paths are the same. -/
  nodup : (tasks.map fun task => task.path.full).Nodup
  /-- A path goes on from another one exactly inside the range of the other. -/
  prefix_iff : ∀ {i j : Nat} {a b : Task}, tasks[i]? = some a → tasks[j]? = some b → i ≠ j →
    (a.path.full <+: b.path.full ↔ Encloses tasks i j)

namespace Catalog

variable {catalog : Catalog} {request : Record}

/-- The tasks of a plan at their places. -/
def placedTasks (catalog : Catalog) (request : Record) : List Placed :=
  Branch.placedOf [] 0 (catalog.forest request)

theorem getElem?_plan_iff {i : Nat} {task : Task} :
    (catalog.plan request).tasks[i]? = some task ↔
      ∃ p ∈ catalog.placedTasks request, p.place = i ∧ p.task = task := by
  have hiff : (Branch.tasksOf (catalog.forest request))[i]? = some task ↔
      ∃ p ∈ catalog.placedTasks request, p.place = 0 + i ∧ p.task = task :=
    Branch.getElem?_tasksOf_iff
  rw [plan_tasks, hiff, Nat.zero_add]

/-- What a task of a plan is nested in stands in front of it in the plan. -/
theorem mem_above {q : Placed} (hq : q ∈ catalog.placedTasks request) {x : Nat × Task}
    (hx : x ∈ q.above) :
    x.1 < q.place ∧ ∃ p ∈ catalog.placedTasks request, p.entry = x := by
  obtain ⟨new, hnew, hmem⟩ := Branch.above_split hq
  rw [List.append_nil] at hnew
  exact hmem x (hnew ▸ hx)

/-- **Ranges are nesting**: a task lies in the range of another one exactly if it is nested in
it. -/
theorem encloses_iff (hrequest : (Json.obj request).Distinct) {p q : Placed}
    (hp : p ∈ catalog.placedTasks request) (hq : q ∈ catalog.placedTasks request) :
    Encloses (catalog.plan request).tasks p.place q.place ↔ p.entry ∈ q.above := by
  have hwithin := Branch.placed_within_or_apart (catalog.fits_forest request)
    (catalog.apart_forest hrequest) (by simp) hp hq
  have htask : (catalog.plan request).tasks[p.place]? = some p.task :=
    getElem?_plan_iff.2 ⟨p, hp, rfl, rfl⟩
  constructor
  · rintro ⟨task, htask', hlt, hle⟩
    obtain rfl : p.task = task := Option.some.inj (htask.symm.trans htask')
    rcases hwithin hlt with ⟨hmem, -⟩ | ⟨-, hend, -⟩
    · exact hmem
    · omega
  · intro hmem
    have hlt : p.place < q.place := (mem_above hq hmem).1
    rcases hwithin hlt with ⟨-, hend⟩ | ⟨hnot, -⟩
    · exact ⟨p.task, htask, hlt, by omega⟩
    · exact absurd hmem hnot

/-- What encloses the place of a task is what the task is nested in. -/
theorem exists_of_encloses (hrequest : (Json.obj request).Distinct) {i : Nat} {q : Placed}
    (hq : q ∈ catalog.placedTasks request)
    (h : Encloses (catalog.plan request).tasks i q.place) :
    ∃ p ∈ catalog.placedTasks request, p.place = i ∧ p.entry ∈ q.above := by
  obtain ⟨task, htask, hrange⟩ := h
  obtain ⟨p, hp, rfl, rfl⟩ := getElem?_plan_iff.1 htask
  exact ⟨p, hp, rfl, (encloses_iff hrequest hp hq).1 ⟨p.task, htask, hrange⟩⟩

/-- Nested tasks are those nested in something. -/
theorem isNested_iff_above {q : Placed} (hq : q ∈ catalog.placedTasks request) :
    q.task.isNested = true ↔ q.above ≠ [] := by
  have hbelow := Branch.below_above (catalog.fits_forest request) hq
  rw [hbelow.isNested]
  cases q.above <;> simp

/-- The path of a task is no start of the path of another one, unless the other is nested in
it. -/
theorem prefix_iff_above (hrequest : (Json.obj request).Distinct) {p q : Placed}
    (hp : p ∈ catalog.placedTasks request) (hq : q ∈ catalog.placedTasks request)
    (hne : p.place ≠ q.place) :
    p.task.path.full <+: q.task.path.full ↔ p.entry ∈ q.above := by
  have hfits := catalog.fits_forest request
  have hapart := catalog.apart_forest hrequest
  constructor
  · intro hle
    rcases Nat.lt_or_gt_of_ne hne with hlt | hgt
    · rcases Branch.placed_within_or_apart hfits hapart (by simp) hp hq hlt with
        ⟨hmem, -⟩ | ⟨-, -, hparted⟩
      · exact hmem
      · exact absurd hle hparted.1
    · rcases Branch.placed_within_or_apart hfits hapart (by simp) hq hp hgt with
        ⟨hmem, -⟩ | ⟨-, -, hparted⟩
      · obtain ⟨hle', hne'⟩ := Branch.full_prefix hfits (by simp) hp hmem
        exact absurd (hle'.eq_of_length (Nat.le_antisymm hle'.length_le hle.length_le)) hne'
      · exact absurd hle hparted.2
  · intro hmem
    exact (Branch.full_prefix hfits (by simp) hq hmem).1

/-- The nearest task that a nested one is in. -/
theorem exists_parent (hrequest : (Json.obj request).Distinct) {q : Placed}
    (hq : q ∈ catalog.placedTasks request) (hnested : q.task.isNested = true) :
    ∃ p ∈ catalog.placedTasks request,
      Encloses (catalog.plan request).tasks p.place q.place ∧
      (∀ k, Encloses (catalog.plan request).tasks k q.place → k ≤ p.place) ∧
      q.task.Below catalog (some p.task) := by
  have hbelow := Branch.below_above (catalog.fits_forest request) hq
  have hsorted := Branch.above_pairwise List.Pairwise.nil (by simp) hq
  cases habove : q.above with
  | nil => exact absurd habove ((isNested_iff_above hq).1 hnested)
  | cons nearest further =>
    have hnearest : nearest ∈ q.above := habove ▸ List.mem_cons_self ..
    obtain ⟨-, p, hp, rfl⟩ := mem_above hq hnearest
    refine ⟨p, hp, (encloses_iff hrequest hp hq).2 hnearest, fun k hk => ?_, ?_⟩
    · obtain ⟨a, -, rfl, hmem⟩ := exists_of_encloses hrequest hq hk
      rw [habove] at hmem hsorted
      rcases List.mem_cons.1 hmem with heq | hmem
      · exact Nat.le_of_eq (congrArg Prod.fst heq)
      · exact Nat.le_of_lt ((List.pairwise_cons.1 hsorted).1 _ hmem)
    · rw [habove] at hbelow
      exact hbelow

/-- **The plan of a request is its forest in preorder**: the counts of the tasks give ranges that
are nested as the nodes of the request are, and the paths, batches and links agree with them. -/
theorem preorder_plan (catalog : Catalog) {request : Record}
    (hrequest : (Json.obj request).Distinct) :
    Preorder (catalog.plan request).tasks (Keyed.keys request) where
  bounded := by
    intro i task htask
    obtain ⟨p, hp, rfl, rfl⟩ := getElem?_plan_iff.1 htask
    have hend := Branch.end_lt (catalog.fits_forest request) hp
    rw [plan_tasks]
    omega
  laminar := by
    intro i j a b ha hb hle
    obtain ⟨p, hp, rfl, rfl⟩ := getElem?_plan_iff.1 ha
    obtain ⟨q, hq, rfl, rfl⟩ := getElem?_plan_iff.1 hb
    rcases Nat.eq_or_lt_of_le hle with heq | hlt
    · have htask : p.task = q.task := Option.some.inj (ha.symm.trans (heq ▸ hb))
      rw [heq, htask]
      exact Or.inl (Nat.le_refl _)
    · rcases Branch.placed_within_or_apart (catalog.fits_forest request)
        (catalog.apart_forest hrequest) (by simp) hp hq hlt with ⟨-, hend⟩ | ⟨-, hend, -⟩
      · exact Or.inl hend
      · exact Or.inr hend
  outermost := by
    intro j b hb
    obtain ⟨q, hq, rfl, rfl⟩ := getElem?_plan_iff.1 hb
    rw [← Bool.not_eq_true, isNested_iff_above hq, not_not]
    constructor
    · intro habove i hi
      obtain ⟨p, -, -, hmem⟩ := exists_of_encloses hrequest hq hi
      rw [habove] at hmem
      cases hmem
    · intro hnone
      refine List.eq_nil_iff_forall_not_mem.2 fun x hx => ?_
      obtain ⟨-, p, hp, rfl⟩ := mem_above hq hx
      exact hnone p.place ((encloses_iff hrequest hp hq).2 hx)
  roots := by
    have hfits := catalog.fits_forest request
    rw [plan_tasks, Branch.filter_tasksOf hfits, ← (catalog.compiles_forest request).segments,
      List.map_map]
    refine List.map_congr_left fun branch hbranch => ?_
    show branch.root.path.full.head? = branch.root.path.keys.head?
    rw [NodePath.full, (Branch.root_below hfits hbranch).parentKeys]
    rfl
  parent := by
    intro j b hb hnested
    obtain ⟨q, hq, rfl, rfl⟩ := getElem?_plan_iff.1 hb
    obtain ⟨p, hp, hencloses, hnearest, hbelow⟩ := exists_parent hrequest hq hnested
    obtain ⟨link, hlink, -⟩ := hbelow.link
    exact ⟨p.place, p.task, getElem?_plan_iff.2 ⟨p, hp, rfl, rfl⟩, hencloses, hnearest,
      hbelow.parentKeys, hbelow.underBatch, by simp [hlink]⟩
  batch := by
    intro j b hb
    obtain ⟨q, hq, rfl, rfl⟩ := getElem?_plan_iff.1 hb
    rw [Branch.isBatch_iff_above (catalog.fits_forest request) (by simp) hq]
    refine or_congr_right ⟨?_, ?_⟩
    · rintro ⟨x, hx, hgroup⟩
      obtain ⟨-, p, hp, rfl⟩ := mem_above hq hx
      exact ⟨p.place, p.task, getElem?_plan_iff.2 ⟨p, hp, rfl, rfl⟩,
        (encloses_iff hrequest hp hq).2 hx, hgroup⟩
    · rintro ⟨i, a, ha, hencloses, hgroup⟩
      obtain ⟨p, hp, rfl, hmem⟩ := exists_of_encloses hrequest hq hencloses
      obtain rfl : p.task = a :=
        Option.some.inj ((getElem?_plan_iff.2 ⟨p, hp, rfl, rfl⟩).symm.trans ha)
      exact ⟨p.entry, hmem, hgroup⟩
  nodup := by
    rw [List.Nodup, List.pairwise_map, List.pairwise_iff_getElem]
    intro i j hi hj hlt heq
    obtain ⟨p, hp, hpi, hpt⟩ := getElem?_plan_iff.1 (List.getElem?_eq_getElem hi)
    obtain ⟨q, hq, hqj, hqt⟩ := getElem?_plan_iff.1 (List.getElem?_eq_getElem hj)
    rw [← hpt, ← hqt] at heq
    have hmem := (prefix_iff_above hrequest hp hq (by omega)).1 (heq ▸ List.prefix_rfl)
    exact (Branch.full_prefix (catalog.fits_forest request) (by simp) hq hmem).2 heq
  prefix_iff := by
    intro i j a b ha hb hne
    obtain ⟨p, hp, rfl, rfl⟩ := getElem?_plan_iff.1 ha
    obtain ⟨q, hq, rfl, rfl⟩ := getElem?_plan_iff.1 hb
    rw [prefix_iff_above hrequest hp hq hne, encloses_iff hrequest hp hq]

end Catalog

/-- A request with a page on the way, a key that looks like a path, and a node without model. -/
def Library.request : Record :=
  [("authors", .obj [("@pagination", .bool true), ("books", .obj [("author", .bool true)])]),
    ("authors.pagination", .obj [("@model", .str "author"), ("books", .bool true)]),
    ("nobody", .bool true)]

theorem Catalog.preorder_plan_library : (Json.obj Library.request).Distinct ∧
    (Library.catalog.plan Library.request).tasks.length = 6 ∧
    Preorder (Library.catalog.plan Library.request).tasks (Keyed.keys Library.request) := by
  have hdistinct : (Json.obj Library.request).Distinct := by
    simp [Library.request, Keyed.keys, Json.Distinct, Json.DistinctFields]
  exact ⟨hdistinct, by decide +kernel, preorder_plan Library.catalog hdistinct⟩

end NestedQuery
