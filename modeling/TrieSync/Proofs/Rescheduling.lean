import TrieSync.Proofs.Chart
import TrieSync.Proofs.Outstanding
import TrieSync.Proofs.Termination

/-!
What is scheduled once is not scheduled again. However the first call ends, the node is in place
after it: scheduled or staged where it belongs, with no other node there. That is all that a second
call looks at before it changes anything.
-/

namespace TrieSync

/-- The way to a place leads through another one, and further. -/
def Path.Above (upper lower : Path) : Prop :=
  upper.Covers lower ∧ ¬ lower.Covers upper

theorem Path.Above.trans {upper between lower : Path} (h : upper.Above between)
    (h' : between.Above lower) : upper.Above lower :=
  ⟨h.1.trans h'.1, fun covers => h.2 (h'.1.trans covers)⟩

theorem Path.Above.ne {upper lower : Path} (h : upper.Above lower) : lower ≠ upper := by
  rintro rfl
  exact h.2 (Path.Covers.refl lower)

theorem CodeTable.insert_again (table : CodeTable) (digest : Digest) (path : Path) :
    (table.insert digest path none).insert digest path none = table.insert digest path none := by
  have again {table : CodeTable} {request : CodeRequest}
      (found : table.requests[digest]? = some request) :
      table.insert digest path none = table := by
    have parents_eq : { request with parents := request.parents ++ (none : Option RequestId).toList } =
        request := by
      simp
    rw [CodeTable.insert, found]
    show { table with requests := table.requests.insert digest _ } = table
    rw [parents_eq, Entries.insert_eq_self found]
  obtain ⟨request, found⟩ : ∃ request,
      (table.insert digest path none).requests[digest]? = some request := by
    unfold CodeTable.insert
    split
    · exact ⟨_, (Entries.getElem?_insert _ _ _ _).trans (if_pos rfl)⟩
    · exact ⟨_, (Entries.getElem?_insert _ _ _ _).trans (if_pos rfl)⟩
  exact again found

namespace Scheduler

variable {H : Hash} {store : Store} {schema : Schema} {task : Task} {tasks new : List Task}
  {scheduler after : Scheduler} {occurrence : Occurrence} {id : RequestId} {request : Request}

/-- A node is scheduled or staged at its place, and no other node is. -/
inductive InPlace (scheduler : Scheduler) (occurrence : Occurrence) : Prop
  | scheduled {id : RequestId} {request : Request}
      (responsible : scheduler.requests.byPath[occurrence.path]? = some id)
      (live : scheduler.requests.live? id = some request)
      (digest_eq : request.occurrence.digest = occurrence.digest)
      (agrees : ∀ digest, scheduler.staging.digestAt? occurrence.path = some digest →
        digest = occurrence.digest)
  | staged (absent : scheduler.requests.byPath[occurrence.path]? = none)
      (staged : scheduler.staging.digestAt? occurrence.path = some occurrence.digest)

section second

theorem InPlace.addSubTrie_eq (inPlace : scheduler.InPlace occurrence)
    (wellFormed : scheduler.requests.WellFormed) (H : Hash) (store : Store) :
    scheduler.addSubTrie H store occurrence = .ok scheduler := by
  cases inPlace with
  | @scheduled id request responsible live digest_eq agrees =>
      obtain ⟨current, current_live, member⟩ := wellFormed.byPath_live responsible
      obtain rfl := Option.some.inj (live.symm.trans current_live)
      have responsible_eq := RequestTable.responsible?_of_live responsible live
      have staged_agrees :
          (scheduler.staging.digestAt? occurrence.path).all (· = occurrence.digest) = true := by
        simpa [Option.all_eq_true] using agrees
      have schedule_eq : scheduler.scheduleRoot H store occurrence = .ok scheduler := by
        rw [scheduleRoot, scheduleNode]
        split
        · rfl
        · simp only [responsible_eq, bind, Except.bind, Option.filter, digest_eq, decide_true,
            if_true, await, link_eq live, RequestTable.linked_none live member]
      simp only [addSubTrie, responsible_eq, Except.mapError, bind, Except.bind, Option.map_some,
        Option.all_some, digest_eq, decide_true, staged_agrees, Bool.and_self, if_true, schedule_eq]
  | staged absent staged =>
      have responsible_eq := RequestTable.responsible?_of_absent absent
      have schedule_eq : scheduler.scheduleRoot H store occurrence = .ok scheduler := by
        rw [scheduleRoot, scheduleNode]
        split
        · rfl
        · simp only [responsible_eq, bind, Except.bind, Option.filter]
          rfl
      simp only [addSubTrie, responsible_eq, Except.mapError, bind, Except.bind, Option.map_none,
        Option.all_none, staged, Option.all_some, decide_true, Bool.and_self, if_true, schedule_eq]

theorem InPlace.addSubTrie_conflict (inPlace : scheduler.InPlace occurrence) (H : Hash)
    (store : Store) {other : Occurrence}
    (path_eq : other.path = occurrence.path) (digest_ne : other.digest ≠ occurrence.digest) :
    scheduler.addSubTrie H store other = .error (.rejected (.pathConflict occurrence.path)) := by
  have decide_eq : decide (occurrence.digest = other.digest) = false :=
    decide_eq_false (Ne.symm digest_ne)
  cases inPlace with
  | @scheduled id request responsible live digest_eq agrees =>
      have responsible_eq := RequestTable.responsible?_of_live responsible live
      simp only [addSubTrie, path_eq, responsible_eq, Except.mapError, bind, Except.bind,
        Option.map_some, Option.all_some, digest_eq, decide_eq, Bool.false_and]
      rfl
  | staged absent staged =>
      have responsible_eq := RequestTable.responsible?_of_absent absent
      simp only [addSubTrie, path_eq, responsible_eq, Except.mapError, bind, Except.bind,
        Option.map_none, Option.all_none, staged, Option.all_some, decide_eq, Bool.and_false]
      rfl

theorem agrees_of_addSubTrie (wellFormed : scheduler.requests.WellFormed)
    (added : scheduler.addSubTrie H store occurrence = .ok after) {digest : Digest}
    (staged : scheduler.staging.digestAt? occurrence.path = some digest) :
    digest = occurrence.digest := by
  rcases RequestTable.responsible?_cases wellFormed occurrence.path with
    ⟨-, responsible_eq⟩ | ⟨id, request, -, -, responsible_eq⟩
  all_goals
    simp only [addSubTrie, responsible_eq, Except.mapError, bind, Except.bind, staged,
      Option.all_some] at added
    split at added
    · rename_i agrees
      exact of_decide_eq_true ((Bool.and_eq_true _ _).mp agrees).2
    · simp [throw, throwThe, MonadExceptOf.throw] at added

end second

section cases

/-- A request is what it was, apart from the parent that a task lets wait for its node, and from the
place that the task is about. -/
structure KeptFor (H : Hash) (task : Task) (old request : Request) : Prop where
  occurrence_eq : request.occurrence = old.occurrence
  parents : ∀ parent ∈ request.parents, parent ∈ old.parents ∨
    request.occurrence ∈ task.opens H ∧ parent ∈ task.parent?
  occurrences : ∀ node ∈ request.occurrences, node ∈ old.occurrences ∨ node ∈ task.opens H

/-- A request is for the node that a task is about. -/
structure MadeFor (H : Hash) (task : Task) (request : Request) : Prop where
  opens : request.occurrence ∈ task.opens H
  parents : ∀ parent ∈ request.parents, parent ∈ task.parent? ∨ parent ∈ task.held
  occurrences_eq : request.occurrences = [request.occurrence]

private theorem KeptFor.link {parent : Option RequestId} (parent_eq : task.parent? = parent)
    (opens : occurrence ∈ task.opens H)
    (digest_eq : request.occurrence.digest = occurrence.digest) :
    KeptFor H task request (request.link occurrence.path parent) where
  occurrence_eq := Request.occurrence_link _ _ _
  parents other member := by
    refine (Request.mem_parents_link member).imp_right fun ⟨path_eq, parent_mem⟩ => ?_
    have occurrence_eq : request.occurrence = occurrence := by
      rw [Occurrence.mk.injEq]
      exact ⟨path_eq.symm, digest_eq⟩
    rw [Request.occurrence_link, occurrence_eq, parent_eq]
    exact ⟨opens, parent_mem⟩
  occurrences node member := by
    have node_eq : node = ⟨node.path, request.occurrence.digest⟩ := by
      rw [← Request.occurrence_link request occurrence.path parent,
        ← Request.digest_of_mem_occurrences member]
    have path_mem := Request.path_mem_paths member
    by_cases old_path : node.path ∈ request.paths
    · rw [node_eq]
      exact .inl (Request.mem_occurrences_of_mem_paths old_path)
    · have path_eq : node.path = occurrence.path := by
        by_cases linked : occurrence.path ∈ request.paths
        · exact absurd (Request.paths_link_of_mem parent linked ▸ path_mem) old_path
        · rw [Request.paths_link_of_notMem parent linked] at path_mem
          exact List.mem_singleton.mp ((List.mem_append.mp path_mem).resolve_left old_path)
      rw [node_eq, path_eq, digest_eq]
      exact .inr opens

theorem Step.live_cases (wellFormed : scheduler.requests.WellFormed)
    (step : Step H store scheduler task new after)
    (live : after.requests.live? id = some request) :
    (∃ old, scheduler.requests.live? id = some old ∧ KeptFor H task old request) ∨
      scheduler.requests.live? id = none ∧ MadeFor H task request := by
  cases step.origin wellFormed live with
  | kept old_live => exact .inl ⟨_, old_live, rfl, fun _ => .inl, fun _ => .inl⟩
  | @linked parent occurrence old pending old_live _ digest_ne digest_eq =>
      have kept : KeptFor H (.node parent occurrence) { old with pending }
          (Request.link { old with pending } occurrence.path parent) :=
        .link rfl (by simp [Task.opens, digest_ne]) digest_eq
      exact .inl ⟨_, old_live, kept.occurrence_eq, kept.parents, kept.occurrences⟩
  | asked unused unscheduled =>
      exact .inr ⟨unused, by simp [Task.opens, unscheduled.digest_ne, Request.waiting],
        fun _ member => .inl (Option.mem_toList.mp member), rfl⟩
  | askedAgain unused | placed unused =>
      exact .inr ⟨unused, List.mem_singleton_self _, fun _ => .inr, rfl⟩

theorem Step.byPath_cases (step : Step H store scheduler task new after) (path : Path) :
    after.requests.byPath[path]? = scheduler.requests.byPath[path]? ∨
      (∃ node ∈ task.opens H, node.path = path) ∨
      ∃ id request, task = .release id ∧ scheduler.requests.live? id = some request ∧
        request.pending = 1 ∧ scheduler.requests.byPath[path]? = some id := by
  have of_linked {waiting : Option RequestId} (other : RequestId) (current : Request)
      {occurrence : Occurrence} (opens : occurrence ∈ task.opens H) :
      ((scheduler.awaited waiting).requests.linked other current occurrence.path
        waiting).byPath[path]? = scheduler.requests.byPath[path]? ∨
          ∃ node ∈ task.opens H, node.path = path := by
    rw [← byPath_awaited scheduler waiting]
    exact (RequestTable.byPath_linked _ other current occurrence.path waiting path).imp_right
      fun path_eq => ⟨occurrence, opens, path_eq⟩
  have of_allocate {table : RequestTable} (byPath_eq : table.byPath = scheduler.requests.byPath)
      (fresh : Request) (opens : fresh.occurrence ∈ task.opens H) :
      (table.allocate fresh).2.byPath[path]? = scheduler.requests.byPath[path]? ∨
        ∃ node ∈ task.opens H, node.path = path := by
    rw [RequestTable.byPath_allocate, Entries.getElem?_insert, byPath_eq]
    split
    · exact .inr ⟨_, opens, ‹_›⟩
    · exact .inl rfl
  cases step with
  | skipEmpty | skipStaged | skipStored | skipCode | count => exact .inl rfl
  | copy | askCode => exact .inl (by simp)
  | joinHere digest_ne => exact (of_linked _ _ (by simp [Task.opens, digest_ne])).imp_right .inl
  | joinElsewhere unscheduled =>
      exact (of_linked _ _ (by simp [Task.opens, unscheduled.digest_ne])).imp_right .inl
  | ask unscheduled =>
      exact (of_allocate (byPath_awaited _ _) _
        (by simp [Task.opens, unscheduled.digest_ne, Request.waiting])).imp_right .inl
  | askAgain => exact (of_allocate rfl _ (List.mem_singleton_self _)).imp_right .inl
  | @resolve occurrence bytes parents references fresh requests decoded inserted =>
      obtain rfl : (scheduler.requests.insertFetched occurrence bytes parents).2 = requests :=
        congrArg Prod.snd inserted
      rw [byPath_awaited]
      exact (of_allocate rfl _ (List.mem_singleton_self _)).imp_right .inl
  | @complete other current bytes live pending_eq =>
      show (RequestTable.unlink _ other current.paths).byPath[path]? = _ ∨ _
      rw [RequestTable.byPath_unlink]
      split
      · rename_i dropped
        exact .inr (.inr ⟨other, current, rfl, live, pending_eq, dropped.2⟩)
      · exact .inl rfl

end cases

theorem Coherent.pending_ne_one (coherent : Coherent (.release id :: tasks) scheduler)
    (released : .release id ∈ tasks) (live : scheduler.requests.live? id = some request) :
    request.pending ≠ 1 := by
  have held_mem : id ∈ tasks.flatMap Task.held ++ scheduler.waiters :=
    List.mem_append_left _ (List.mem_flatMap.mpr ⟨_, released, List.mem_singleton_self id⟩)
  have pending_eq : request.pending =
      (id :: (tasks.flatMap Task.held ++ scheduler.waiters)).count id :=
    coherent.counted.pending_eq live
  have counted := List.count_pos_iff.mpr held_mem
  rw [List.count_cons_self] at pending_eq
  omega

section enclosed

variable {old : RequestId → Prop}

/-- A node was put at a place, and what it refers to is still being scheduled. Its request waits for
that, the requests that were live before stay live, and everything new lies below the node. -/
structure Enclosed (H : Hash) (old : RequestId → Prop) (id : RequestId) (occurrence : Occurrence)
    (tasks : List Task) (scheduler : Scheduler) : Prop where
  last : ∃ front, tasks = front ++ [.release id]
  held : ∀ task ∈ tasks, ∀ other ∈ task.held, ¬ old other
  opens : ∀ task ∈ tasks, ∀ node ∈ task.opens H, occurrence.path.Above node.path
  old_live : ∀ other, old other → ∃ request, scheduler.requests.live? other = some request
  parents : ∀ {other request}, scheduler.requests.live? other = some request → ¬ old other →
    ∀ parent ∈ request.parents, ¬ old parent
  below : ∀ {other request}, scheduler.requests.live? other = some request → ¬ old other →
    other = id ∨ occurrence.path.Above request.occurrence.path
  live : ∃ request, scheduler.requests.live? id = some request ∧
    request.occurrence = occurrence ∧ request.bytes.isSome = true ∧ request.parents = []
  responsible : scheduler.requests.byPath[occurrence.path]? = some id
  notStaged : scheduler.staging.digestAt? occurrence.path = none

namespace Enclosed

variable (h : Enclosed H old id occurrence (task :: tasks) scheduler)

include h

private theorem held_step (coherent : Coherent (task :: tasks) scheduler)
    (step : Step H store scheduler task new after) :
    ∀ next ∈ new, ∀ other ∈ next.held, ¬ old other := by
  intro next member other held
  cases step with
  | @copy parent node bytes =>
      obtain rfl := List.mem_singleton.mp member
      have released : .release other ∈ tasks :=
        coherent.heldOpen.1 other (Option.mem_toList.mp held)
      exact h.held _ (List.mem_cons_of_mem _ released) other (List.mem_singleton_self other)
  | @resolve node bytes parents references fresh requests decoded inserted =>
      have fresh_eq : other = fresh := by
        have held_mem : other ∈ (references.tasks fresh node.path).flatMap Task.held :=
          List.mem_flatMap.mpr ⟨next, member, held⟩
        rw [flatMap_held_tasks] at held_mem
        exact List.mem_singleton.mp held_mem
      subst fresh_eq
      intro old_fresh
      obtain ⟨request, live⟩ := h.old_live _ old_fresh
      have unused := RequestTable.live?_allocate_fst coherent.counted.wellFormed
        (.waiting node parents (some bytes))
      have fresh_eq : (scheduler.requests.allocate (.waiting node parents (some bytes))).1 = other :=
        congrArg Prod.fst inserted
      simp [fresh_eq, live] at unused
  | @complete released request bytes live =>
      obtain ⟨parent, parent_mem, rfl⟩ := List.mem_map.mp member
      obtain rfl := List.mem_singleton.mp held
      refine h.parents live (h.held _ List.mem_cons_self released (List.mem_singleton_self _)) _ ?_
      exact List.mem_reverse.mp parent_mem
  | _ => simp at member

private theorem opens_step (step : Step H store scheduler task new after) :
    ∀ next ∈ new, ∀ node ∈ next.opens H, occurrence.path.Above node.path := by
  intro next member node opens
  cases step with
  | @copy parent upper bytes unscheduled =>
      obtain rfl := List.mem_singleton.mp member
      obtain rfl := List.mem_singleton.mp opens
      refine h.opens _ List.mem_cons_self node ?_
      simp [Task.opens, unscheduled.digest_ne]
  | @resolve upper bytes parents references fresh requests decoded inserted =>
      have node_mem : node ∈ references.nodes := by
        have opens_mem : node ∈ (references.tasks fresh upper.path).flatMap (Task.opens H) :=
          List.mem_flatMap.mpr ⟨next, member, opens⟩
        rw [flatMap_opens_tasks] at opens_mem
        exact List.mem_of_mem_filter opens_mem
      have below := Schema.references_below decoded
      refine Path.Above.trans (h.opens _ List.mem_cons_self upper (List.mem_singleton_self _)) ?_
      exact ⟨below.covers node node_mem, below.not_covers node node_mem⟩
  | complete =>
      obtain ⟨parent, -, rfl⟩ := List.mem_map.mp member
      simp [Task.opens] at opens
  | _ => simp at member

private theorem live_step (coherent : Coherent (task :: tasks) scheduler)
    (released : .release id ∈ tasks) (step : Step H store scheduler task new after) :
    ∃ request, after.requests.live? id = some request ∧ request.occurrence = occurrence ∧
      request.bytes.isSome = true ∧ request.parents = [] := by
  obtain ⟨request, live, occurrence_eq, known, parents_eq⟩ := h.live
  rcases step.live_kept coherent.counted.wellFormed live with
    ⟨next, next_live, next_eq, bytes_eq⟩ | ⟨task_eq, pending_eq, -⟩
  · refine ⟨next, next_live, next_eq.trans occurrence_eq, bytes_eq ▸ known, ?_⟩
    rcases step.live_cases coherent.counted.wellFormed next_live with
      ⟨again, again_live, kept⟩ | ⟨unused, -⟩
    · obtain rfl := Option.some.inj (live.symm.trans again_live)
      refine List.eq_nil_iff_forall_not_mem.mpr fun parent member => ?_
      rcases kept.parents parent member with member | ⟨opens, -⟩
      · simp [parents_eq] at member
      · rw [next_eq, occurrence_eq] at opens
        exact (h.opens _ List.mem_cons_self _ opens).ne rfl
    · simp [live] at unused
  · subst task_eq
    exact absurd pending_eq (coherent.pending_ne_one released live)

private theorem step (coherent : Coherent (task :: tasks) scheduler)
    (last : ∃ front, tasks = front ++ [.release id])
    (step : Step H store scheduler task new after) :
    Enclosed H old id occurrence (new ++ tasks) after := by
  have wellFormed := coherent.counted.wellFormed
  have released : .release id ∈ tasks := by
    obtain ⟨front, rfl⟩ := last
    exact List.mem_append_right _ (List.mem_singleton_self _)
  have not_old {other : RequestId} (held : other ∈ task.held ∨ other ∈ task.parent?) :
      ¬ old other := by
    rcases held with held | parent
    · exact h.held _ List.mem_cons_self other held
    · exact h.held _ (List.mem_cons_of_mem _ (coherent.heldOpen.1 other parent)) other
        (List.mem_singleton_self other)
  have enclosed_live := h.live_step coherent released step
  refine ⟨?_, ?_, ?_, ?_, ?_, ?_, enclosed_live, ?_, ?_⟩
  · obtain ⟨front, rfl⟩ := last
    exact ⟨new ++ front, (List.append_assoc _ _ _).symm⟩
  · intro next member
    rcases List.mem_append.mp member with member | member
    · exact h.held_step coherent step next member
    · exact h.held next (List.mem_cons_of_mem _ member)
  · intro next member
    rcases List.mem_append.mp member with member | member
    · exact h.opens_step step next member
    · exact h.opens next (List.mem_cons_of_mem _ member)
  · intro other old_other
    obtain ⟨request, live⟩ := h.old_live other old_other
    rcases step.live_kept wellFormed live with ⟨next, next_live, -⟩ | ⟨rfl, -⟩
    · exact ⟨next, next_live⟩
    · exact absurd old_other (not_old (.inl (List.mem_singleton_self other)))
  · intro other request live new_other parent member
    rcases step.live_cases wellFormed live with ⟨before, before_live, kept⟩ | ⟨-, fresh⟩
    · rcases kept.parents parent member with member | ⟨-, member⟩
      · exact h.parents before_live new_other parent member
      · exact not_old (.inr member)
    · exact not_old (fresh.parents parent member).symm
  · intro other request live new_other
    rcases step.live_cases wellFormed live with ⟨before, before_live, kept⟩ | ⟨-, fresh⟩
    · rw [kept.occurrence_eq]
      exact h.below before_live new_other
    · exact .inr (h.opens _ List.mem_cons_self _ fresh.opens)
  · rcases step.byPath_cases occurrence.path with
      byPath_eq | ⟨node, opens, path_eq⟩ | ⟨other, request, task_eq, live, pending_eq, found⟩
    · exact byPath_eq.trans h.responsible
    -- The index entry is neither taken, as all that is opened lies strictly below the place, nor
    -- dropped, as the request is held open until the last task.
    · exact absurd path_eq (h.opens _ List.mem_cons_self node opens).ne
    · obtain rfl := Option.some.inj (h.responsible.symm.trans found)
      subst task_eq
      exact absurd pending_eq (coherent.pending_ne_one released live)
  · rcases step.staging_cases with
      staging_eq | ⟨other, request, bytes, rfl, live, pending_eq, -, staging_eq⟩
    · rw [staging_eq]
      exact h.notStaged
    · have path_ne : request.occurrence.path ≠ occurrence.path := by
        rcases h.below live (not_old (.inl (List.mem_singleton_self other))) with rfl | above
        · exact absurd pending_eq (coherent.pending_ne_one released live)
        · exact above.ne
      rw [staging_eq, Staging.digestAt?_insertNode, if_neg path_ne]
      exact h.notStaged

omit h in
/-- After the last of the tasks the node is scheduled if it waits for something, and staged
otherwise. -/
private theorem inPlace (h : Enclosed H old id occurrence [task] scheduler)
    (step : Step H store scheduler task new after) : new = [] ∧ after.InPlace occurrence := by
  obtain ⟨front, tasks_eq⟩ := h.last
  obtain ⟨rfl, task_eq⟩ := List.append_eq_singleton_iff.mp tasks_eq.symm |>.resolve_right (by simp)
  obtain rfl := List.singleton_inj.mp task_eq
  obtain ⟨request, live, rfl, known, parents_eq⟩ := h.live
  cases step with
  | @count _ current pending current_live pending_eq waits =>
      obtain rfl := Option.some.inj (live.symm.trans current_live)
      have counted_live := RequestTable.live?_set_self live { request with pending }
      exact ⟨rfl, .scheduled h.responsible counted_live rfl (by simp [h.notStaged])⟩
  | @complete _ current bytes current_live pending_eq bytes_eq =>
      obtain rfl := Option.some.inj (live.symm.trans current_live)
      refine ⟨by simp [parents_eq], .staged ?_ ?_⟩
      · show (RequestTable.unlink _ id request.paths).byPath[request.occurrence.path]? = none
        rw [RequestTable.byPath_unlink, if_pos ⟨List.mem_cons_self, h.responsible⟩]
      · exact Staging.digestAt?_insertNode_self _ _ _

end Enclosed

theorem Enclosed.inPlace_of_works (h : Enclosed H old id occurrence tasks scheduler)
    (coherent : Coherent tasks scheduler) (works : Works H store tasks scheduler after) :
    after.InPlace occurrence := by
  have done := works.keeps
    (fun tasks scheduler => Enclosed H old id occurrence tasks scheduler ∨
      tasks = [] ∧ scheduler.InPlace occurrence) ?_ coherent (.inl h)
  · rcases done.2 with enclosed | ⟨-, inPlace⟩
    · obtain ⟨front, tasks_eq⟩ := enclosed.last
      simp at tasks_eq
    · exact inPlace
  · rintro task tasks scheduler new after coherent (enclosed | ⟨tasks_eq, -⟩) step
    · obtain ⟨front, tasks_eq⟩ := enclosed.last
      cases front with
      | nil =>
          obtain ⟨rfl, rfl⟩ := List.cons.inj tasks_eq
          obtain ⟨rfl, inPlace⟩ := enclosed.inPlace step
          exact .inr ⟨rfl, inPlace⟩
      | cons first rest =>
          obtain ⟨-, rfl⟩ := List.cons.inj tasks_eq
          exact .inl (enclosed.step coherent ⟨rest, rfl⟩ step)
    · simp at tasks_eq

/-- A node that is put where nothing else is, and that no request waits for, is enclosed as soon as
its references are to be scheduled. -/
theorem Enclosed.of_place {bytes : Bytes} {references : References} {requests : RequestTable}
    (wellFormed : scheduler.requests.WellFormed)
    (notStaged : scheduler.staging.digestAt? occurrence.path = none)
    (decoded : scheduler.schema.references H occurrence.path bytes = .ok references)
    (inserted : scheduler.requests.insertFetched occurrence bytes [] = (id, requests)) :
    Enclosed H (fun other => ∃ request, scheduler.requests.live? other = some request) id occurrence
      (references.tasks id occurrence.path) ({ scheduler with requests }.awaited (some id)) := by
  have allocated : (scheduler.requests.allocate (.waiting occurrence [] (some bytes))) =
      (id, requests) := inserted
  have unused : scheduler.requests.live? id = none := by
    have unused := RequestTable.live?_allocate_fst wellFormed (.waiting occurrence [] (some bytes))
    rwa [allocated] at unused
  have cases {other : RequestId} {request : Request}
      (live : (({ scheduler with requests } : Scheduler).awaited (some id)).requests.live? other =
        some request)
      (new : ¬ ∃ request, scheduler.requests.live? other = some request) :
      other = id ∧ request.parents = [] := by
    obtain ⟨pending, inserted_live⟩ := exists_live_of_awaited live
    rcases insertFetched_cases wellFormed inserted inserted_live with
      ⟨-, old_live⟩ | ⟨same, request_eq, -⟩
    · exact absurd ⟨_, old_live⟩ new
    · exact ⟨same.symm, congrArg Request.parents request_eq⟩
  have below := Schema.references_below decoded
  constructor
  · exact ⟨_, (List.append_assoc _ _ _).symm⟩
  · rintro task member other held ⟨request, live⟩
    have held_mem : other ∈ (references.tasks id occurrence.path).flatMap Task.held :=
      List.mem_flatMap.mpr ⟨task, member, held⟩
    rw [flatMap_held_tasks] at held_mem
    obtain rfl := List.mem_singleton.mp held_mem
    simp [live] at unused
  · intro task member node opens
    have opens_mem : node ∈ (references.tasks id occurrence.path).flatMap (Task.opens H) :=
      List.mem_flatMap.mpr ⟨task, member, opens⟩
    rw [flatMap_opens_tasks] at opens_mem
    have node_mem := List.mem_of_mem_filter opens_mem
    exact ⟨below.covers node node_mem, below.not_covers node node_mem⟩
  · rintro other ⟨request, live⟩
    obtain ⟨pending, awaited_live⟩ := @exists_awaited_of_live { scheduler with requests } (some id)
      other request (live?_insertFetched_of_live wellFormed inserted live)
    exact ⟨_, awaited_live⟩
  · intro other request live new parent member
    rw [(cases live new).2] at member
    simp at member
  · exact fun live new => .inl (cases live new).1
  · have fresh_live := live?_insertFetched_self wellFormed inserted
    obtain ⟨pending, awaited_live⟩ := @exists_awaited_of_live { scheduler with requests } (some id)
      id _ fresh_live
    exact ⟨_, awaited_live, rfl, rfl, rfl⟩
  · have byPath_eq := RequestTable.byPath_allocate scheduler.requests
      (.waiting occurrence [] (some bytes))
    rw [allocated] at byPath_eq
    rw [byPath_awaited, byPath_eq, Entries.getElem?_insert]
    exact if_pos rfl
  · rw [staging_awaited]
    exact notStaged

end enclosed

private theorem inPlace_ask (wellFormed : scheduler.requests.WellFormed)
    (notStaged : scheduler.staging.digestAt? occurrence.path = none) (parents : List RequestId) :
    (scheduler.ask occurrence parents).InPlace occurrence := by
  refine .scheduled ?_ (live?_ask_self wellFormed occurrence parents) rfl ?_
  · exact (congrArg (fun byPath => byPath[occurrence.path]?) (RequestTable.byPath_allocate _ _)).trans
      ((Entries.getElem?_insert _ _ _ _).trans (if_pos rfl))
  · intro digest found
    have staging_eq : (scheduler.ask occurrence parents).staging = scheduler.staging := rfl
    simp [staging_eq, notStaged] at found

private theorem inPlace_linked (live : scheduler.requests.live? id = some request)
    (new_path : occurrence.path ∉ request.paths)
    (digest_eq : request.occurrence.digest = occurrence.digest)
    (notStaged : scheduler.staging.digestAt? occurrence.path = none) :
    InPlace { scheduler with
      requests := scheduler.requests.linked id request occurrence.path none } occurrence := by
  refine .scheduled ?_ (RequestTable.live?_linked_self live occurrence.path none) ?_ ?_
  · show (scheduler.requests.linked id request occurrence.path none).byPath[occurrence.path]? = some id
    rw [RequestTable.linked, if_neg new_path]
    exact (Entries.getElem?_insert _ _ _ _).trans (if_pos rfl)
  · rw [Request.occurrence_link, digest_eq]
  · simp [notStaged]

private theorem eq_or_inPlace (coherent : Coherent [.node none occurrence] scheduler)
    (notStaged : Unscheduled H scheduler occurrence →
      scheduler.staging.digestAt? occurrence.path = none)
    (works : Works H store [.node none occurrence] scheduler after) :
    after = scheduler ∨ after.InPlace occurrence := by
  have wellFormed := coherent.counted.wellFormed
  have linked_eq {id : RequestId} {request : Request}
      (live : scheduler.requests.live? id = some request)
      (member : occurrence.path ∈ request.paths) :
      { scheduler with requests :=
        scheduler.requests.linked id request occurrence.path none } = scheduler :=
    congrArg (fun requests => { scheduler with requests }) (RequestTable.linked_none live member)
  obtain - | ⟨step, works⟩ := works
  have next_coherent := coherent.step step
  cases step with
  | skipEmpty | skipStaged | skipStored =>
      cases works
      exact .inl rfl
  | joinHere digest_ne responsible live =>
      obtain ⟨current, current_live, member⟩ := wellFormed.byPath_live responsible
      obtain rfl := Option.some.inj (current_live.symm.trans live)
      cases works
      exact .inl (linked_eq live member)
  | @joinElsewhere _ _ id request unscheduled _ _ live _ digest_eq =>
      cases works
      by_cases member : occurrence.path ∈ request.paths
      · exact .inl (linked_eq live member)
      · exact .inr (inPlace_linked live member digest_eq (notStaged unscheduled))
  | ask unscheduled =>
      cases works
      exact .inr (inPlace_ask wellFormed (notStaged unscheduled) [])
  | copy unscheduled =>
      obtain - | ⟨step, works⟩ := works
      have tasks_coherent := next_coherent.step step
      cases step with
      | askAgain =>
          cases works
          exact .inr (inPlace_ask wellFormed (notStaged unscheduled) [])
      | resolve decoded inserted =>
          have enclosed := Enclosed.of_place wellFormed (notStaged unscheduled) decoded inserted
          rw [show ([] : List Task).append [] = [] from rfl, List.append_nil] at works tasks_coherent
          exact .inr (enclosed.inPlace_of_works tasks_coherent works)

theorem addSubTrie_again (coherent : Coherent [] scheduler)
    (added : scheduler.addSubTrie H store occurrence = .ok after) :
    after.addSubTrie H store occurrence = .ok after := by
  have performed : scheduler.perform H store (.addSubTrie occurrence) = .ok after := added
  obtain ⟨tasks, start, turn, start_coherent, works⟩ := works_of_perform coherent performed
  cases turn with
  | addSubTrie =>
      have notStaged (unscheduled : Unscheduled H scheduler occurrence) :
          scheduler.staging.digestAt? occurrence.path = none := by
        refine Option.eq_none_iff_forall_ne_some.mpr fun digest staged => ?_
        have digest_eq := agrees_of_addSubTrie coherent.counted.wellFormed added staged
        exact unscheduled.notStaged (digest_eq ▸ staged)
      rcases eq_or_inPlace start_coherent notStaged works with rfl | inPlace
      · exact added
      · exact inPlace.addSubTrie_eq (works.coherent start_coherent).counted.wellFormed H store

theorem addCode_again (scheduler : Scheduler) (store : Store) (digest : Digest) (path : Path) :
    ∃ after, scheduler.addCode store digest path = .ok after ∧
      after.addCode store digest path = .ok after := by
  by_cases present : (scheduler.staging.hasCode digest || store.hasCode digest) = true
  · have added : scheduler.addCode store digest path = .ok scheduler := if_pos present
    exact ⟨scheduler, added, added⟩
  · have added (codes : CodeTable) :
        addCode { scheduler with codes } store digest path =
          .ok { scheduler with codes := codes.insert digest path none } :=
      if_neg present
    exact ⟨_, added scheduler.codes, by rw [added, CodeTable.insert_again]⟩

end Scheduler

end TrieSync
