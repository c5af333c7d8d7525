import NestedQuery.Proofs.Resolve.JoinIndex
import NestedQuery.Proofs.Resolve.OwnParent
/-!
# Carrying out the writes

The writes of a walk are noted as it goes and carried out in reverse
when it is over. What comes of it can be told without any queue: the
final outcome of a visit (`Visit.final`) is what was fetched, each
record in its final shape, with the final outcomes of the visits nested
in it stitched into the records they join to. The slots of a walk settle
to just that (`Engine.Follows.settled`).

The reverse order is what makes it work. Among the writes noted for a
forest those of later branches come first, then those of what is nested
in the first branch, then its own; so all that goes into a record was
written when the record is copied (`Engine.Follows.replay`).
-/

namespace NestedQuery

/-! ## Outcomes, record by record -/

namespace Outcome

/-- Changes every record, told its position. -/
def mapAt (f : Nat → Record → Record) : Outcome → Outcome
  | record fields => record (f 0 fields)
  | records rows => records (rows.mapIdx f)
  | other => other

variable (f g : Nat → Record → Record) (outcome : Outcome)

theorem record?_mapAt (position : Nat) :
    (outcome.mapAt f).record? position = (outcome.record? position).map (f position) := by
  cases outcome with
  | record fields => cases position <;> rfl
  | records rows => simp [mapAt, record?]
  | _ => cases position <;> rfl

theorem mapAt_mapAt :
    (outcome.mapAt f).mapAt g = outcome.mapAt fun position fields =>
      g position (f position fields) := by
  cases outcome with
  | records rows => simp [mapAt, Function.comp_def]
  | _ => rfl

theorem mapAt_self (h : ∀ position fields, f position fields = fields) :
    outcome.mapAt f = outcome := by
  cases outcome with
  | record fields => rw [mapAt, h]
  | records rows =>
    rw [mapAt]
    refine congrArg records (List.ext_getElem? fun i => ?_)
    rw [List.getElem?_mapIdx]
    cases rows[i]? with
    | none => rfl
    | some fields => rw [Option.map_some, h]
  | _ => rfl

theorem mapRecords_eq (shape : Record → Record) :
    outcome.mapRecords shape = outcome.mapAt fun _ => shape := by
  cases outcome with
  | records rows =>
    rw [mapAt, mapRecords]
    exact congrArg records (List.ext_getElem? fun i => by simp)
  | _ => rfl

theorem modifyAt_eq (shape : Record → Record) (position : Nat) :
    outcome.modifyAt shape position = outcome.mapAt fun i fields =>
      if i = position then shape fields else fields := by
  cases outcome with
  | record fields =>
    cases position with
    | zero => rfl
    | succ n => simp [mapAt, modifyAt]
  | records rows =>
    have hmodify : rows.modify position shape = rows.mapIdx fun i fields =>
        if i = position then shape fields else fields := by
      refine List.ext_getElem? fun i => ?_
      rw [List.getElem?_modify, List.getElem?_mapIdx]
      by_cases heq : position = i
      · simp [heq]
      · simp [heq, Ne.symm heq]
    cases position <;> simp only [mapAt, modifyAt, hmodify]
  | _ => cases position <;> rfl

/-- Changes at different positions are one change of every record. -/
theorem foldr_modifyAt (shape : Json → Record → Record) {targets : List (Json × Nat)}
    (h : targets.Pairwise fun a b => a.2 < b.2) :
    targets.foldr (fun target o => o.modifyAt (shape target.1) target.2) outcome =
      outcome.mapAt fun position fields =>
        match targets.find? fun target => target.2 = position with
        | some target => shape target.1 fields
        | none => fields := by
  induction targets with
  | nil =>
    rw [List.foldr_nil, mapAt_self]
    intro position fields
    rfl
  | cons first rest ih =>
    obtain ⟨hfirst, hrest⟩ := List.pairwise_cons.1 h
    rw [List.foldr_cons, ih hrest, modifyAt_eq, mapAt_mapAt]
    congr 1
    funext position fields
    by_cases heq : position = first.2
    · subst heq
      have hnone : rest.find? (fun target => target.2 = first.2) = none := by
        rw [List.find?_eq_none]
        intro target htarget
        have := hfirst target htarget
        simp only [decide_eq_true_eq]
        omega
      rw [hnone, List.find?_cons_of_pos (by simp)]
      simp
    · rw [if_neg heq, List.find?_cons_of_neg (by simpa using Ne.symm heq)]

end Outcome

namespace Slots

/-- A write changes no slot but its own. -/
theorem read_modify_ne (slots : Slots) {slot other : Nat} (h : slot ≠ other)
    (f : Outcome → Outcome) : read (slots.modify slot f) other = read slots other := by
  rw [read, read, List.getElem?_modify_ne _ _ h]

/-- Writes that go into one slot and copy from another one, carried out last to first. -/
theorem foldl_perform {slot source : Nat} (hne : slot ≠ source) (keys : List String)
    (graftFor : Json → Graft) (value : Outcome → Json → Json)
    (hvalue : ∀ (slots : Slots) key, slots.graft (graftFor key) = value (slots.read source) key)
    (targets : List (Json × Nat)) (slots : Slots) :
    ((targets.map fun target => (⟨slot, target.2, keys, graftFor target.1⟩ : PendingWrite)).reverse).foldl
        perform slots =
      slots.modify slot fun outcome => targets.foldr
        (fun target o => o.modifyAt
          (fun record => Json.writeInto record keys (value (slots.read source) target.1)) target.2)
        outcome := by
  rw [List.foldl_reverse, List.foldr_map]
  induction targets with
  | nil =>
    simp only [List.foldr_nil]
    exact (List.modify_id slot slots).symm
  | cons target rest ih =>
    rw [List.foldr_cons, ih, perform]
    simp only [hvalue, read_modify_ne slots hne, List.modify_modify_eq]
    rfl

end Slots

/-! ## Final outcomes -/

namespace Task

/-- The key with which a task writes into the record of a host at a position: under a batch the
value that the record has to join to, otherwise the first record is all there is to write to. -/
def targetKey? (task : Task) (link : Link) (host : Host) (position : Nat) : Option Json :=
  if task.batch.underBatch then
    (host.fetched.record? position).bind fun record => record.get? link.referencedKey
  else if position = 0 then some .null else none

/-- The records of a host that a task writes into, each with its key. -/
def hostTargets (task : Task) (link : Link) (host : Host) : List (Json × Nat) :=
  if task.batch.underBatch then (JoinIndex.ofOutcome host.fetched link.referencedKey).entries
  else [(.null, 0)]

theorem hostTargets_pairwise (task : Task) (link : Link) (host : Host) :
    (task.hostTargets link host).Pairwise fun a b => a.2 < b.2 := by
  unfold hostTargets
  split
  · exact JoinIndex.pairwise_ofOutcome _ _
  · exact List.pairwise_singleton _ _

theorem find?_hostTargets (task : Task) (link : Link) (host : Host) (position : Nat) :
    (task.hostTargets link host).find? (fun target => target.2 = position) =
      (task.targetKey? link host position).map fun key => (key, position) := by
  unfold hostTargets targetKey?
  split
  · exact JoinIndex.find?_ofOutcome _ _ _
  · by_cases heq : position = 0
    · subst heq
      rfl
    · rw [if_neg heq, List.find?_cons_of_neg (by simpa using Ne.symm heq)]
      rfl

end Task

namespace Visit

/-- What a visit writes into a record with a key, once all that is nested in the visit is done:
null if there was no outcome; under a batch the records that carry the key, all of them for a list
and the first one otherwise; else all there is. -/
def valueFor (visit : Visit) (link : Link) (final : Outcome) (key : Json) : Json :=
  match visit with
  | missed _ _ => .null
  | kept stop fetched _ =>
    if stop.task.batch.underBatch then
      let found := fetched.joining link.localKey key
      if stop.task.batch.isGroup then .arr ((found.filterMap final.record?).map .obj)
      else ((found.head?.bind final.record?).map .obj).getD .null
    else final.toJson

/-- Puts the final outcome of a visit into the record of its host at a position. -/
def stitchAt (visit : Visit) (host : Host) (final : Outcome) (position : Nat) (record : Record) :
    Record :=
  match visit.stop.task.link with
  | none => record
  | some link =>
    match visit.stop.task.targetKey? link host position with
    | some key => Json.writeInto record visit.stop.task.path.keys (visit.valueFor link final key)
    | none => record

/-- Puts the final outcome of a visit into the outcome of its host. -/
def stitch (visit : Visit) (host : Host) (final outcome : Outcome) : Outcome :=
  outcome.mapAt (visit.stitchAt host final)

mutual

/-- The outcome of a visit in the end: what was fetched, in its final shape, and with what is
nested in it. -/
def final : Visit → Outcome
  | missed _ _ => .absent
  | kept stop fetched nested =>
    finalBelow (stop.host fetched) nested (fetched.mapRecords stop.task.finish)

/-- The outcome of a host after some nested visits, the later ones first. -/
def finalBelow (host : Host) : List Visit → Outcome → Outcome
  | [], outcome => outcome
  | visit :: rest, outcome => visit.stitch host visit.final (finalBelow host rest outcome)

end

/-- The outcome of a visit before anything nested in it was written. -/
def shaped : Visit → Outcome
  | missed _ _ => .absent
  | kept stop fetched _ => fetched.mapRecords stop.task.finish

/-- The slots of the tasks that some visits were about, passed over ones among them. -/
def slotsOf (value : Visit → Outcome) : List Visit → Slots
  | [] => []
  | missed stop _ :: rest =>
    List.replicate (stop.task.childCount + 1) .absent ++ slotsOf value rest
  | kept stop fetched nested :: rest =>
    value (kept stop fetched nested) :: (slotsOf value nested ++ slotsOf value rest)

end Visit

/-! ## The writes of a visit -/

namespace Visit

/-- What a visit copies into a record with a key. -/
def graftFor (visit : Visit) (link : Link) (key : Json) : Graft :=
  match visit with
  | missed _ _ => .nothing
  | kept stop fetched _ =>
    if stop.task.batch.underBatch then
      let found := fetched.joining link.localKey key
      if stop.task.batch.isGroup then .many stop.place found
      else match found with
        | first :: _ => .one stop.place first
        | [] => .nothing
    else .whole stop.place

/-- The writes of a visit into the records of a host, in the order in which they are noted. -/
def notes (visit : Visit) (host : Host) (link : Link) : List PendingWrite :=
  (visit.stop.task.hostTargets link host).map fun target =>
    ⟨host.place, target.2, visit.stop.task.path.keys, visit.graftFor link target.1⟩

/-- What is copied is the value for the key, given what the slot of the visit holds. -/
theorem graft_graftFor (visit : Visit) (link : Link) (slots : Slots) (key : Json) :
    slots.graft (visit.graftFor link key) =
      visit.valueFor link (slots.read visit.stop.place) key := by
  cases visit with
  | missed stop fault => rfl
  | kept stop fetched nested =>
    simp only [graftFor, valueFor, Visit.stop]
    split
    · split
      · rfl
      · cases fetched.joining link.localKey key with
        | nil => rfl
        | cons first rest =>
          simp only [Slots.graft, List.head?_cons, Option.bind_some]
          cases (slots.read stop.place).record? first <;> rfl
    · rfl

/-- **The writes of a visit stitch it into its host**, whose slot is another one. -/
theorem foldl_notes {visit : Visit} {host : Host} {link : Link}
    (hlink : visit.stop.task.link = some link) (hne : host.place ≠ visit.stop.place)
    (slots : Slots) :
    (visit.notes host link).reverse.foldl Slots.perform slots =
      slots.modify host.place (visit.stitch host (slots.read visit.stop.place)) := by
  rw [notes, Slots.foldl_perform hne visit.stop.task.path.keys (visit.graftFor link)
    (visit.valueFor link) (visit.graft_graftFor link)]
  congr 1
  funext outcome
  rw [Outcome.foldr_modifyAt outcome (fun key record => Json.writeInto record
    visit.stop.task.path.keys (visit.valueFor link (slots.read visit.stop.place) key))
    (Task.hostTargets_pairwise ..), stitch]
  congr 1
  funext position record
  rw [Task.find?_hostTargets, stitchAt, hlink]
  cases htarget : visit.stop.task.targetKey? link host position <;> simp [htarget]

end Visit

namespace Progress

variable {catalog : Catalog} {progress : Progress} {task : Task} {place : Nat} {host : Host}
  {link : Link}

/-- The records that a task writes into are those of its host. -/
theorem Holds.targets (h : progress.Holds host) (hbelow : task.Below catalog (some host.task))
    (hcolumn : link.referencedKey ∈ host.task.joinColumns) :
    task.targets link progress.cache = task.hostTargets link host := by
  have hindex : progress.cache.index? task.path.parentText link.referencedKey =
      some (.ofOutcome host.fetched link.referencedKey) := by
    rw [JoinCache.index?, hbelow.parentText, h.2, Option.bind_some, Task.get?_indices (Or.inl hcolumn)]
  rw [Task.targets, Task.hostTargets, hindex]

theorem Holds.parent? (h : progress.Holds host) (hbelow : task.Below catalog (some host.task))
    (hlink : task.link = some link) : progress.parent? task = some (link, host.place) := by
  rw [Progress.parent?, hlink, hbelow.parentText, h.1]
  rfl

/-- What a task notes that is left without outcome. -/
theorem Holds.writes_miss (h : progress.Holds host)
    (hbelow : task.Below catalog (some host.task)) (hlink : task.link = some link)
    (hcolumn : link.referencedKey ∈ host.task.joinColumns) (stop : Stop) (hstop : stop.task = task)
    (fault : Option Fault) :
    (progress.miss task fault).writes =
      ((Visit.missed stop fault).notes host link).reverse ++ progress.writes := by
  subst hstop
  simp only [miss, h.parent? hbelow hlink, Task.emptyWrites, h.targets hbelow hcolumn]
  rfl

/-- What a task notes that has an outcome. -/
theorem Holds.writes_keep (h : progress.Holds host)
    (hbelow : task.Below catalog (some host.task)) (hlink : task.link = some link)
    (hcolumn : link.referencedKey ∈ host.task.joinColumns) (hlocal : link.localKey ∈ task.joinColumns)
    (hne : task.path.text ≠ host.task.path.text) (stop : Stop) (hstop : stop.task = task)
    (fetched : Outcome) (nested : List Visit) :
    (progress.keep task stop.place fetched).writes =
      ((Visit.kept stop fetched nested).notes host link).reverse ++ progress.writes := by
  subst hstop
  have hkept : (progress.keep stop.task stop.place fetched).Holds host := h.keep hne
  have hown : (progress.cache.insert stop.task.path.text (stop.task.indices fetched)).index?
      stop.task.path.text link.localKey = some (.ofOutcome fetched link.localKey) := by
    rw [JoinCache.index?, JoinCache.slot?, JoinCache.insert, Keyed.get?_put, if_pos rfl,
      Option.bind_some, Task.get?_indices (Or.inl hlocal)]
  have htargets := hkept.targets hbelow hcolumn
  simp only [Progress.keep, h.parent? hbelow hlink, Task.graftWrites, Visit.notes, Visit.stop]
  congr 2
  rw [← htargets]
  by_cases hunder : stop.task.batch.underBatch = true
  · rw [if_pos hunder]
    refine List.map_congr_left fun target _ => ?_
    have hgraft : (Visit.kept stop fetched nested).graftFor link target.1 = _ := if_pos hunder
    simp only [Task.graftFor, hown, JoinIndex.positionsOf_ofOutcome]
    exact congrArg (PendingWrite.mk host.place target.2 stop.task.path.keys) hgraft.symm
  · rw [if_neg hunder]
    simp [Task.targets, hunder, Visit.graftFor]

end Progress

/-! ## The slots of a walk -/

namespace Visit

/-- The outcome of a host that some visits may be nested in, once they are stitched into it. -/
def stitchInto (host? : Option Host) (visits : List Visit) (slots : Slots) : Slots :=
  match host? with
  | none => slots
  | some host => slots.modify host.place (finalBelow host visits)

theorem modify_append_left {slots : Slots} {slot : Nat} (h : slot < slots.length)
    (f : Outcome → Outcome) (more : Slots) :
    (slots ++ more).modify slot f = slots.modify slot f ++ more := by
  rw [List.modify_eq_take_cons_drop (by simp; omega), List.modify_eq_take_cons_drop h,
    List.take_append_of_le_length (by omega), List.getElem_append_left h,
    List.drop_append_of_le_length (by omega)]
  simp

theorem stitchInto_append {host? : Option Host} {slots : Slots}
    (h : ∀ host ∈ host?, host.place < slots.length) (visits : List Visit) (more : Slots) :
    stitchInto host? visits (slots ++ more) = stitchInto host? visits slots ++ more := by
  cases host? with
  | none => rfl
  | some host => rw [stitchInto, stitchInto, modify_append_left (h host rfl)]

/-- The same for one visit, with its final outcome. -/
def stitchOne (host? : Option Host) (visit : Visit) (final : Outcome) (slots : Slots) : Slots :=
  match host? with
  | none => slots
  | some host => slots.modify host.place (visit.stitch host final)

@[simp] theorem stitchInto_nil (host? : Option Host) (slots : Slots) :
    stitchInto host? [] slots = slots := by
  cases host? with
  | none => rfl
  | some host =>
    have hid : finalBelow host [] = id := funext fun outcome => by rw [finalBelow, id]
    rw [stitchInto, hid, List.modify_id]

theorem stitchInto_cons (host? : Option Host) (visit : Visit) (rest : List Visit) (slots : Slots) :
    stitchInto host? (visit :: rest) slots =
      stitchOne host? visit visit.final (stitchInto host? rest slots) := by
  cases host? with
  | none => rfl
  | some host =>
    rw [stitchInto, stitchOne, stitchInto, List.modify_modify_eq]
    rfl

theorem stitchOne_append {host? : Option Host} {slots : Slots}
    (h : ∀ host ∈ host?, host.place < slots.length) (visit : Visit) (final : Outcome)
    (more : Slots) :
    stitchOne host? visit final (slots ++ more) = stitchOne host? visit final slots ++ more := by
  cases host? with
  | none => rfl
  | some host => rw [stitchOne, stitchOne, modify_append_left (h host rfl)]

@[simp] theorem length_stitchInto (host? : Option Host) (visits : List Visit) (slots : Slots) :
    (stitchInto host? visits slots).length = slots.length := by
  cases host? <;> simp [stitchInto]

/-- The slot behind those of the host is not touched. -/
theorem read_stitchInto (host? : Option Host) (visits : List Visit) {slots : Slots} {slot : Nat}
    (h : slots.length = slot) (outcome : Outcome) (more : Slots) :
    Slots.read (stitchInto host? visits slots ++ outcome :: more) slot = outcome := by
  rw [Slots.read, List.getElem?_append_right (by simp [h])]
  simp [h]

/-- What is nested in a visit, stitched into its own slot, makes its final outcome. -/
theorem stitchInto_own (stop : Stop) (fetched : Outcome) (nested : List Visit) {slots : Slots}
    (h : slots.length = stop.place) :
    stitchInto (some (stop.host fetched)) nested (slots ++ [fetched.mapRecords stop.task.finish]) =
      slots ++ [final (.kept stop fetched nested)] := by
  rw [stitchInto, Visit.final, List.modify_eq_take_cons_drop (by simp [Stop.host, h])]
  simp [Stop.host, ← h]

end Visit

namespace Engine.Follows

variable {σ : Type} {engine : Engine σ} {operation : Operation} {input : Record}
  {branches : List Branch} {place : Nat} {progress progress' : Progress} {s s' : σ}
  {visits : List Visit} {catalog : Catalog}

theorem length_slotsOf
    (h : engine.Follows operation input branches place progress s visits progress' s')
    {parent : Option Task} (hfits : Branch.Fits catalog parent branches)
    (value : Visit → Outcome) :
    (Visit.slotsOf value visits).length = (Branch.tasksOf branches).length := by
  induction h generalizing parent with
  | nil => simp [Visit.slotsOf]
  | missed _ _ ih =>
    cases hfits with
    | node _ hcount _ hrest =>
      have := ih hrest
      simp only [Visit.slotsOf, Branch.tasksOf_node, List.length_append, List.length_replicate,
        List.length_cons]
      omega
  | kept _ _ _ ihnested ih =>
    cases hfits with
    | node _ _ hnested hrest =>
      have hlenNested := ihnested hnested
      have hlenRest := ih hrest
      simp only [Visit.slotsOf, Branch.tasksOf_node, List.length_append, List.length_cons]
      omega

/-- During the walk a slot gets what was fetched for its task, in its final shape. -/
theorem slots (h : engine.Follows operation input branches place progress s visits progress' s')
    {parent : Option Task} (hfits : Branch.Fits catalog parent branches) (before after : Slots)
    (hbefore : before.length = place)
    (hslots : progress.slots =
      before ++ (List.replicate (Branch.tasksOf branches).length .absent ++ after)) :
    progress'.slots = before ++ (Visit.slotsOf Visit.shaped visits ++ after) := by
  induction h generalizing parent before after with
  | nil => simpa [Visit.slotsOf] using hslots
  | @missed task nested rest place progress _ _ _ _ fault _ _ _ ih =>
    cases hfits with
    | node _ hcount _ hrest =>
      have hentered : ((progress.enter task place).miss task fault).slots =
          (before ++ List.replicate (task.childCount + 1) .absent) ++
            (List.replicate (Branch.tasksOf rest).length .absent ++ after) := by
        show progress.slots = _
        rw [hslots, Branch.tasksOf_node, List.length_cons, List.length_append, ← hcount,
          List.append_assoc, ← List.append_assoc (List.replicate _ _), List.replicate_append_replicate]
        congr 3
        omega
      have hrest := ih hrest _ after (by simp; omega) hentered
      rw [hrest, Visit.slotsOf]
      simp only [List.append_assoc]
  | @kept task nested rest place progress _ _ _ _ _ _ fetched inner visits _ hinner _ ihnested ih =>
    cases hfits with
    | node _ _ hnested hrest =>
      have hkept : ((progress.enter task place).keep task place fetched).slots =
          (before ++ [fetched.mapRecords task.finish]) ++
            (List.replicate (Branch.tasksOf nested).length .absent ++
              (List.replicate (Branch.tasksOf rest).length .absent ++ after)) := by
        show progress.slots.set place (fetched.mapRecords task.finish) = _
        rw [hslots, Branch.tasksOf_node, List.length_cons, List.length_append,
          List.replicate_succ, ← List.replicate_append_replicate,
          List.set_append_right _ _ (by omega), hbefore, Nat.sub_self, List.cons_append,
          List.set_cons_zero]
        simp only [List.append_assoc, List.cons_append, List.nil_append]
      have hinnerSlots := ihnested hnested _ _ (by simp; omega) hkept
      rw [← List.append_assoc] at hinnerSlots
      have hlength := hinner.length_slotsOf hnested Visit.shaped
      have hrest := ih hrest _ after (by simp; omega) hinnerSlots
      rw [hrest, Visit.slotsOf]
      simp [Visit.shaped]

/-! ## The replay -/

/-- What a task without outcome notes, carried out in reverse. -/
theorem exists_noted_miss {progress : Progress} {host? : Option Host} (stop : Stop)
    (hbelow : stop.task.Below catalog (host?.map Host.task))
    (hhost : ∀ host ∈ host?, host.place ≠ stop.place ∧ progress.Holds host)
    (fault : Option Fault) :
    ∃ noted, (progress.miss stop.task fault).writes = noted ++ progress.writes ∧
      ∀ slots : Slots, noted.foldl Slots.perform slots =
        Visit.stitchOne host? (.missed stop fault) (slots.read stop.place) slots := by
  cases host? with
  | none =>
    have hlink : stop.task.link = none := hbelow.link
    refine ⟨[], ?_, fun slots => rfl⟩
    simp [Progress.miss, Progress.parent?, hlink]
  | some host =>
    obtain ⟨hne, hholds⟩ := hhost host rfl
    obtain ⟨link, hlink, -, hcolumn, -⟩ := hbelow.link
    exact ⟨_, hholds.writes_miss hbelow hlink hcolumn stop rfl fault,
      Visit.foldl_notes hlink hne⟩

/-- What a task with an outcome notes, carried out in reverse. -/
theorem exists_noted_keep {progress : Progress} {host? : Option Host} (stop : Stop)
    (hbelow : stop.task.Below catalog (host?.map Host.task))
    (hhost : ∀ host ∈ host?, host.place ≠ stop.place ∧ progress.Holds host ∧
      stop.task.path.text ≠ host.task.path.text)
    (fetched : Outcome) (nested : List Visit) :
    ∃ noted, (progress.keep stop.task stop.place fetched).writes = noted ++ progress.writes ∧
      ∀ slots : Slots, noted.foldl Slots.perform slots =
        Visit.stitchOne host? (.kept stop fetched nested) (slots.read stop.place) slots := by
  cases host? with
  | none =>
    have hlink : stop.task.link = none := hbelow.link
    refine ⟨[], ?_, fun slots => rfl⟩
    simp [Progress.keep, Progress.parent?, hlink]
  | some host =>
    obtain ⟨hne, hholds, htext⟩ := hhost host rfl
    obtain ⟨link, hlink, hlocal, hcolumn, -⟩ := hbelow.link
    exact ⟨_, hholds.writes_keep hbelow hlink hcolumn hlocal htext stop rfl fetched nested,
      Visit.foldl_notes hlink hne⟩

/-- **The writes noted for a forest, carried out in reverse, stitch it up**: each visit into its
host, and those at the top into the host of the forest if there is one. -/
theorem replay (h : engine.Follows operation input branches place progress s visits progress' s')
    (host? : Option Host) (hfits : Branch.Fits catalog (host?.map Host.task) branches)
    (hhost : ∀ host ∈ host?, host.place < place ∧ ∀ visit ∈ visits,
      visit.stop.progress.Holds host ∧ visit.stop.task.path.text ≠ host.task.path.text) :
    ∃ noted, progress'.writes = noted ++ progress.writes ∧
      ∀ before after : Slots, before.length = place →
        noted.foldl Slots.perform (before ++ (Visit.slotsOf Visit.shaped visits ++ after)) =
          Visit.stitchInto host? visits before ++ (Visit.slotsOf Visit.final visits ++ after) := by
  induction h generalizing host? with
  | nil => exact ⟨[], rfl, fun before after _ => by simp [Visit.slotsOf]⟩
  | @missed task nested rest place progress _ _ _ _ fault visits _ _ ih =>
    cases hfits with
    | node hbelow hcount _ hrest =>
      have hplace : ∀ host ∈ host?, host.place < place := fun host hmem => (hhost host hmem).1
      have hholds : ∀ host ∈ host?, (progress.enter task place).Holds host := fun host hmem =>
        ((hhost host hmem).2 _ (List.mem_cons_self ..)).1
      obtain ⟨own, hown, hperformOwn⟩ := exists_noted_miss ⟨task, place, progress.enter task place⟩
        hbelow (fun host hmem => ⟨Nat.ne_of_lt (hplace host hmem), hholds host hmem⟩) fault
      obtain ⟨noted, hnoted, hperform⟩ := ih host? hrest fun host hmem =>
        ⟨by have := hplace host hmem; omega,
          fun visit hv => (hhost host hmem).2 visit (List.mem_cons_of_mem _ hv)⟩
      refine ⟨noted ++ own, ?_, fun before after hbefore => ?_⟩
      · rw [hnoted, hown, List.append_assoc]
        rfl
      · have hlt : ∀ host ∈ host?, host.place < before.length := fun host hmem =>
          hbefore ▸ hplace host hmem
        have hperform := hperform (before ++ List.replicate (task.childCount + 1) .absent) after
          (by simp; omega)
        rw [Visit.stitchInto_append hlt, List.append_assoc, List.append_assoc,
          ← List.append_assoc (List.replicate _ _), ← List.append_assoc (List.replicate _ _)]
          at hperform
        rw [List.foldl_append, Visit.slotsOf, hperform, hperformOwn, Visit.stitchInto_cons,
          Visit.stitchOne_append (by simpa using hlt), Visit.slotsOf]
        rw [List.replicate_succ, List.cons_append, List.cons_append,
          Visit.read_stitchInto host? visits hbefore, Visit.final]
  | @kept task nested rest place progress _ _ _ _ _ _ fetched inner visits _ hinner _ ihnested ih =>
    cases hfits with
    | node hbelow _ hnested hrest =>
      have hplace : ∀ host ∈ host?, host.place < place := fun host hmem => (hhost host hmem).1
      have hroot : ∀ host ∈ host?, (progress.enter task place).Holds host ∧
          task.path.text ≠ host.task.path.text := fun host hmem =>
        (hhost host hmem).2 _ (List.mem_cons_self ..)
      obtain ⟨own, hown, hperformOwn⟩ := exists_noted_keep ⟨task, place, progress.enter task place⟩
        hbelow (fun host hmem => ⟨Nat.ne_of_lt (hplace host hmem), hroot host hmem⟩) fetched inner
      obtain ⟨notedInner, hnotedInner, hperformInner⟩ := ihnested
        (some ⟨task, place, fetched⟩) hnested fun host hmem => by
          obtain rfl := Option.some.inj hmem
          refine ⟨Nat.lt_succ_self _, fun visit hvisit => ?_⟩
          obtain ⟨hholds, hvisitBelow⟩ :=
            hinner.holds_of_mem hnested hbelow.keys (Progress.holds_keep ..) hvisit
          have hlength := hvisitBelow.length_lt hbelow.keys
          exact ⟨hholds, fun heq => by rw [heq] at hlength; exact Nat.lt_irrefl _ hlength⟩
      obtain ⟨noted, hnoted, hperform⟩ := ih host? hrest fun host hmem =>
        ⟨by have := hplace host hmem; omega,
          fun visit hv => (hhost host hmem).2 visit (List.mem_cons_of_mem _ hv)⟩
      refine ⟨noted ++ (notedInner ++ own), ?_, fun before after hbefore => ?_⟩
      · rw [hnoted, hnotedInner, hown, List.append_assoc, List.append_assoc]
        rfl
      · have hlt : ∀ host ∈ host?, host.place < before.length := fun host hmem =>
          hbefore ▸ hplace host hmem
        have hlength := hinner.length_slotsOf hnested Visit.shaped
        -- the later branches first, then what is nested, then the task itself
        have hperform := hperform (before ++ fetched.mapRecords task.finish ::
          Visit.slotsOf Visit.shaped inner) after (by simp; omega)
        have hperformInner := hperformInner
          (Visit.stitchInto host? visits before ++ [fetched.mapRecords task.finish])
          (Visit.slotsOf Visit.final visits ++ after) (by simp [hbefore])
        rw [Visit.stitchInto_append hlt] at hperform
        have hslot : Visit.stitchInto (some ⟨task, place, fetched⟩) inner
            (Visit.stitchInto host? visits before ++ [fetched.mapRecords task.finish]) = _ :=
          Visit.stitchInto_own ⟨task, place, progress.enter task place⟩ fetched inner
            (by simp [hbefore])
        rw [hslot] at hperformInner
        have hslots : ∀ slots : Slots, before ++ (Visit.slotsOf Visit.shaped
            (.kept ⟨task, place, progress.enter task place⟩ fetched inner :: visits) ++ slots) =
              before ++ fetched.mapRecords task.finish :: Visit.slotsOf Visit.shaped inner ++
                (Visit.slotsOf Visit.shaped visits ++ slots) := by
          intro slots
          simp [Visit.slotsOf, Visit.shaped]
        simp only [List.append_assoc, List.singleton_append] at hperformInner
        rw [hslots, List.foldl_append, hperform, List.foldl_append, List.append_assoc,
          List.cons_append, hperformInner, hperformOwn, Visit.stitchInto_cons,
          Visit.stitchOne_append (by simpa using hlt), Visit.slotsOf]
        rw [Visit.read_stitchInto host? visits hbefore, List.cons_append, List.append_assoc]

/-- **The slots of a walk settle to the final outcomes of its visits.** -/
theorem settled {request : Record}
    (h : engine.Follows operation request (engine.catalog.forest request) 0
      (.start (engine.catalog.plan request)) s visits progress' s') :
    progress'.settled = Visit.slotsOf Visit.final visits := by
  have hfits := engine.catalog.fits_forest request
  have hslots := h.slots hfits [] [] rfl (by simp [Progress.start])
  obtain ⟨noted, hnoted, hperform⟩ := h.replay none hfits (by simp)
  have hperform := hperform [] [] rfl
  have hwrites : progress'.writes = noted := hnoted.trans (List.append_nil noted)
  simp only [List.nil_append, List.append_nil] at hslots hperform
  rw [Progress.settled, hwrites, hslots, hperform]
  rfl

/-- Among the final outcomes each visit has its own at its place. -/
theorem slotsOf_final
    (h : engine.Follows operation input branches place progress s visits progress' s')
    {parent : Option Task} (hfits : Branch.Fits catalog parent branches) {visit : Visit}
    (hoccurs : Visit.Occurs visits visit) :
    ∃ i, visit.stop.place = place + i ∧
      (Visit.slotsOf Visit.final visits)[i]? = some visit.final := by
  induction h generalizing parent with
  | nil => exact absurd hoccurs Visit.occurs_nil
  | @missed task nested rest place _ _ _ _ _ fault visits _ _ ih =>
    cases hfits with
    | node _ hcount _ hrest =>
      rcases Visit.occurs_missed.1 hoccurs with rfl | hoccurs
      · exact ⟨0, rfl, by simp [Visit.slotsOf, Visit.final, List.replicate_succ]⟩
      · obtain ⟨i, hplace, hfinal⟩ := ih hrest hoccurs
        refine ⟨task.childCount + 1 + i, by omega, ?_⟩
        rw [Visit.slotsOf, List.getElem?_append_right (by simp), List.length_replicate,
          Nat.add_sub_cancel_left, hfinal]
  | @kept task nested rest place _ _ _ _ _ _ _ fetched inner visits _ hinner _ ihnested ih =>
    cases hfits with
    | node _ hcount hnested hrest =>
      have hlength := hinner.length_slotsOf hnested Visit.final
      rcases Visit.occurs_kept.1 hoccurs with rfl | hoccurs | hoccurs
      · exact ⟨0, rfl, by rw [Visit.slotsOf, List.getElem?_cons_zero]⟩
      · obtain ⟨i, hplace, hfinal⟩ := ihnested hnested hoccurs
        obtain ⟨hi, -⟩ := List.getElem?_eq_some_iff.1 hfinal
        exact ⟨i + 1, by omega,
          by rw [Visit.slotsOf, List.getElem?_cons_succ, List.getElem?_append_left hi, hfinal]⟩
      · obtain ⟨i, hplace, hfinal⟩ := ih hrest hoccurs
        refine ⟨1 + (Branch.tasksOf nested).length + i, by omega, ?_⟩
        rw [Visit.slotsOf, ← List.cons_append, List.getElem?_append_right (by simp; omega), ← hfinal]
        congr 1
        simp only [List.length_cons]
        omega

/-- The slot of a visit settles to its final outcome. -/
theorem read_settled {request : Record}
    (h : engine.Follows operation request (engine.catalog.forest request) 0
      (.start (engine.catalog.plan request)) s visits progress' s') {visit : Visit}
    (hoccurs : Visit.Occurs visits visit) :
    progress'.settled.read visit.stop.place = visit.final := by
  obtain ⟨i, hplace, hfinal⟩ := h.slotsOf_final (engine.catalog.fits_forest request) hoccurs
  rw [Nat.zero_add] at hplace
  rw [h.settled, hplace, Slots.read, hfinal, Option.getD_some]

end Engine.Follows

end NestedQuery
