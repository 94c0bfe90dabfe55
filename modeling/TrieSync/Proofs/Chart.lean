import TrieSync.Proofs.Addressing

namespace TrieSync

/-- The node that a task is to schedule. -/
def Task.schedules : Task → List Occurrence
  | node _ occurrence => [occurrence]
  | code _ _ _ => []
  | place _ _ _ => []
  | release _ => []

/-- The node that a task is to put at its place. -/
def Task.puts : Task → List Occurrence
  | node _ _ => []
  | code _ _ _ => []
  | place occurrence _ _ => [occurrence]
  | release _ => []

namespace Scheduler

variable {H : Hash} {store : Store} {task : Task} {tasks new : List Task}
  {scheduler after : Scheduler} {past scheduled : List Occurrence} {occurrence : Occurrence}

/-- Where the nodes of live requests are still missing. -/
def unanswered (scheduler : Scheduler) : List Occurrence :=
  scheduler.requests.requests.flatMap Request.unanswered

theorem missingNodes_nil (H : Hash) (scheduler : Scheduler) :
    missingNodes H [] scheduler = scheduler.unanswered := by
  simp [missingNodes, unanswered]

/-- Nodes that were scheduled and are not at their places yet. -/
def waitingNodes (tasks : List Task) (scheduler : Scheduler) : List Occurrence :=
  scheduler.unanswered ++ tasks.flatMap Task.puts

/-- What the beginning of a call or a step makes of the nodes that are still to be scheduled, of
those that wait and of those that are at their places. -/
inductive Advance (H : Hash) (tasks : List Task) (scheduler : Scheduler)
    (added : List Occurrence) (new : List Task) (after : Scheduler) : Prop
  /-- A node waits from when it is scheduled until it is put at its place. -/
  | wait (schedules_eq : tasks.flatMap Task.schedules = added ++ new.flatMap Task.schedules)
      (waiting_perm : (waitingNodes new after).Perm (added ++ waitingNodes tasks scheduler))
      (bodies_perm : after.bodies.Perm scheduler.bodies)
  /-- A node that is empty, staged or stored is dealt with. -/
  | settle {occurrence : Occurrence} (added_eq : added = [occurrence])
      (schedules_eq : tasks.flatMap Task.schedules = occurrence :: new.flatMap Task.schedules)
      (waiting_perm : (waitingNodes new after).Perm (waitingNodes tasks scheduler))
      (bodies_perm : after.bodies.Perm scheduler.bodies)
  /-- A node is put at its place, and what it refers to is to be scheduled. -/
  | put {occurrence : Occurrence} {bytes : Bytes} {references : References}
      {rest : List Occurrence} (added_eq : added = [])
      (decoded : scheduler.schema.references H occurrence.path bytes = .ok references)
      (schedules_eq :
        new.flatMap Task.schedules = references.nodes ++ tasks.flatMap Task.schedules)
      (waiting_perm : (waitingNodes tasks scheduler).Perm (occurrence :: rest))
      (after_perm : (waitingNodes new after).Perm rest)
      (bodies_perm : after.bodies.Perm ((occurrence, bytes) :: scheduler.bodies))

theorem Advance.subset {added : List Occurrence}
    (advance : Advance H tasks scheduler added new after) :
    waitingNodes tasks scheduler ++ scheduler.bodies.map Prod.fst ⊆
      waitingNodes new after ++ after.bodies.map Prod.fst := by
  cases advance with
  | wait schedules_eq waiting_perm bodies_perm =>
      refine List.Subset.trans ?_ (waiting_perm.symm.append (bodies_perm.symm.map Prod.fst)).subset
      exact ((List.sublist_append_right added _).append_right _).subset
  | settle added_eq schedules_eq waiting_perm bodies_perm =>
      exact (waiting_perm.symm.append (bodies_perm.symm.map Prod.fst)).subset
  | @put occurrence bytes references rest added_eq decoded schedules_eq waiting_perm after_perm
      bodies_perm =>
      refine ((waiting_perm.append_right _).trans ?_).subset
      exact List.perm_middle.symm.trans (after_perm.symm.append (bodies_perm.symm.map Prod.fst))

theorem Advance.bodies_subset {added : List Occurrence}
    (advance : Advance H tasks scheduler added new after) : scheduler.bodies ⊆ after.bodies := by
  cases advance with
  | wait _ _ bodies_perm | settle _ _ _ bodies_perm => exact bodies_perm.symm.subset
  | put _ _ _ _ _ bodies_perm =>
      exact List.Subset.trans (List.subset_cons_self _ _) bodies_perm.symm.subset

namespace Addressed

private theorem flatMap_tasks (references : References) (id : RequestId) (path : Path) :
    (references.tasks id path).flatMap Task.schedules = references.nodes ∧
      (references.tasks id path).flatMap Task.puts = [] := by
  simp [References.tasks, List.flatMap_map, Task.schedules, Task.puts]

theorem advance_of_step (addressed : Addressed H (task :: tasks) scheduler past)
    (wellFormed : scheduler.requests.WellFormed) (step : Step H store scheduler task new after) :
    Advance H (task :: tasks) scheduler task.schedules (new ++ tasks) after := by
  have unanswered_perm (nodes : List Occurrence) {first last : Scheduler}
      (perm : (missingNodes H [] last).Perm (nodes ++ missingNodes H [] first)) :
      last.unanswered.Perm (nodes ++ first.unanswered) := by
    rwa [missingNodes_nil, missingNodes_nil] at perm
  have awaited_perm (parent : Option RequestId) :=
    unanswered_perm [] (missingNodes_awaited_perm (H := H) [] scheduler parent)
  have wait (perm : (after.unanswered ++ new.flatMap Task.puts).Perm
        (task.schedules ++ (scheduler.unanswered ++ task.puts)))
      (new_schedules : new.flatMap Task.schedules = [])
      (bodies_perm : after.bodies.Perm scheduler.bodies) :
      Advance H (task :: tasks) scheduler task.schedules (new ++ tasks) after := by
    refine .wait ?_ ?_ bodies_perm
    · rw [List.flatMap_append, new_schedules, List.nil_append, List.flatMap_cons]
    · simp only [waitingNodes, List.flatMap_append, List.flatMap_cons]
      rw [← List.append_assoc]
      refine (perm.append_right _).trans (.of_eq ?_)
      simp only [List.append_assoc]
  cases step with
  | skipEmpty | skipStaged | skipStored => exact .settle rfl rfl (.refl _) (.refl _)
  | @joinHere parent occurrence id request digest_ne responsible live digest_eq =>
      -- The place of a node that is still to be scheduled is not that of any request.
      obtain ⟨old, old_live, member⟩ := wellFormed.byPath_live responsible
      exact absurd member (addressed.notMem_paths wellFormed (if_neg digest_ne) old_live)
  | @joinElsewhere parent occurrence id request unscheduled notStaged unknown live bytes_eq
      digest_eq =>
      obtain ⟨pending, old_live⟩ := exists_live_of_awaited live
      have new_path := addressed.notMem_paths wellFormed (if_neg unscheduled.digest_ne) old_live
      have linked_perm := unanswered_perm [occurrence]
        (missingNodes_linked_perm (H := H) [] live bytes_eq parent digest_eq new_path)
      refine wait ?_ rfl ((bodies_linked_perm live bytes_eq _ _).trans (bodies_awaited_perm _ _))
      simpa [Task.schedules, Task.puts] using linked_perm.trans ((awaited_perm parent).cons _)
  | @copy parent occurrence bytes unscheduled known =>
      refine wait ?_ rfl (bodies_awaited_perm _ _)
      simpa [Task.schedules, Task.puts] using
        ((awaited_perm parent).append_right [occurrence]).trans (List.perm_append_singleton _ _)
  | @ask parent occurrence unscheduled notStaged notLive notStored =>
      have awaited_wellFormed := wellFormed_awaited wellFormed parent
      have asked_perm := unanswered_perm [occurrence]
        (missingNodes_ask_perm (H := H) awaited_wellFormed [] occurrence parent.toList)
      refine wait ?_ rfl
        ((bodies_ask_perm awaited_wellFormed _ _).trans (bodies_awaited_perm _ _))
      simpa [Task.schedules, Task.puts] using asked_perm.trans ((awaited_perm parent).cons _)
  | skipCode => exact wait (.refl _) rfl (.refl _)
  | @askCode parent path digest notStaged notStored =>
      exact wait ((awaited_perm parent).append_right []) rfl (bodies_awaited_perm _ _)
  | @askAgain occurrence bytes parents cause undecodable =>
      have asked_perm := unanswered_perm [occurrence]
        (missingNodes_ask_perm (H := H) wellFormed [] occurrence parents)
      refine wait ?_ rfl (bodies_ask_perm wellFormed _ _)
      simpa [Task.schedules, Task.puts] using
        asked_perm.trans (List.perm_append_singleton _ _).symm
  | @resolve occurrence bytes parents references id requests decoded inserted =>
      have inserted_perm := unanswered_perm []
        ((missingNodes_awaited_perm (H := H) [] { scheduler with requests } (some id)).trans
          (missingNodes_insertFetched_perm wellFormed [] inserted))
      obtain ⟨nodes_eq, puts_eq⟩ := flatMap_tasks references id occurrence.path
      refine .put rfl decoded ?_ List.perm_middle ?_
        ((bodies_awaited_perm _ _).trans (bodies_insertFetched_perm wellFormed inserted))
      · rw [List.flatMap_append, nodes_eq]
        rfl
      · rw [waitingNodes, List.flatMap_append, puts_eq]
        exact inserted_perm.append_right _
  | @count id request pending live pending_eq waits =>
      have count_perm := unanswered_perm []
        (missingNodes_setPending_perm (H := H) [] live pending)
      exact wait (count_perm.append_right _) rfl (bodies_setPending_perm live _)
  | @complete id request bytes live pending_eq known =>
      have complete_perm := unanswered_perm []
        (missingNodes_complete_perm (H := H) [] live known)
      have puts_eq : (request.parents.reverse.map Task.release).flatMap Task.puts = [] := by
        simp [Task.puts]
      refine wait ?_ (by simp [Task.schedules])
        (bodies_complete_perm live known (addressed.notMem_staged live known))
      rw [puts_eq]
      exact complete_perm.append_right []

theorem advance_of_turn {call : Call} {start : Scheduler} (coherent : Coherent [] scheduler)
    (no_trie : ∀ occurrence, call ≠ .addSubTrie occurrence)
    (turn : Turn H scheduler call tasks start) : Advance H [] scheduler [] tasks start := by
  cases turn with
  | addSubTrie => exact absurd rfl (no_trie _)
  | addCode | missing => exact .wait rfl (.refl _) (.refl _)
  | @processNode path bytes id request references responsible inFlight live path_eq digest_eq
      decoded =>
      have unknown := coherent.counted.wellFormed.unknown_of_inFlight inFlight live
      subst path_eq
      obtain ⟨missing_perm, bodies_perm⟩ := received_perm (H := H) [] live unknown bytes
      have puts_eq : (request.copies bytes).flatMap (Task.opens H) =
          (request.copies bytes).flatMap Task.puts := by
        simp [Request.copies, List.flatMap_map, Task.opens, Task.puts]
      have schedules_eq : (request.copies bytes).flatMap Task.schedules = [] := by
        simp [Request.copies, List.flatMap_map, Task.schedules]
      obtain ⟨nodes_eq, no_puts⟩ := flatMap_tasks references id request.occurrence.path
      rw [missingNodes_nil, missingNodes_nil, puts_eq] at missing_perm
      have awaited_perm := missingNodes_awaited_perm (H := H) []
        (scheduler.received id request bytes) (some id)
      rw [missingNodes_nil, missingNodes_nil] at awaited_perm
      have waiting_perm : (waitingNodes [] scheduler).Perm (request.occurrence ::
          ((request.copies bytes).flatMap Task.puts ++
            (scheduler.received id request bytes).unanswered)) := by
        simpa [waitingNodes] using missing_perm
      refine .put rfl decoded ?_ waiting_perm ?_ ((bodies_awaited_perm _ _).trans bodies_perm)
      · rw [List.flatMap_append, nodes_eq, schedules_eq]
        rfl
      · rw [waitingNodes, List.flatMap_append, no_puts, List.nil_append]
        exact List.perm_append_comm.trans (awaited_perm.append_left _)
  | @processCode digest bytes inFlight digest_eq =>
      refine .wait (by simp [Task.schedules]) (.of_eq ?_) (.refl _)
      simp [waitingNodes, unanswered, Task.puts]

theorem works_subset (h : Addressed H tasks scheduler past) (coherent : Coherent tasks scheduler)
    (works : Works H store tasks scheduler after) :
    scheduler.bodies ⊆ after.bodies ∧
      waitingNodes tasks scheduler ++ scheduler.bodies.map Prod.fst ⊆
        waitingNodes [] after ++ after.bodies.map Prod.fst := by
  refine (works.keeps (fun left now => (∃ past, Addressed H left now past) ∧
    scheduler.bodies ⊆ now.bodies ∧ waitingNodes tasks scheduler ++ scheduler.bodies.map Prod.fst ⊆
      waitingNodes left now ++ now.bodies.map Prod.fst) ?_ coherent
    ⟨⟨_, h⟩, List.Subset.refl _, List.Subset.refl _⟩).2.2
  rintro task left now new next coherent ⟨⟨past, addressed⟩, bodies, waiting⟩ step
  have advance := addressed.advance_of_step coherent.counted.wellFormed step
  obtain ⟨skipped, next_addressed⟩ := addressed.step coherent step
  exact ⟨⟨_, next_addressed⟩, List.Subset.trans bodies advance.bodies_subset,
    List.Subset.trans waiting advance.subset⟩

end Addressed

section occupies

/-- A live request is responsible for a node at a place, or the node is staged there. -/
def Occupies (scheduler : Scheduler) (occurrence : Occurrence) : Prop :=
  (∃ id request, scheduler.requests.live? id = some request ∧ occurrence ∈ request.occurrences) ∨
    scheduler.staging.digestAt? occurrence.path = some occurrence.digest

theorem occupies_iff (wellFormed : scheduler.requests.WellFormed) :
    scheduler.Occupies occurrence ↔
      occurrence ∈ waitingNodes [] scheduler ++ scheduler.bodies.map Prod.fst := by
  constructor
  · rintro (⟨id, request, live, member⟩ | staged)
    · cases known : request.bytes with
      | none =>
          refine List.mem_append_left _ (List.mem_append_left _ ?_)
          refine List.mem_flatMap.mpr ⟨request, ?_, ?_⟩
          · exact RequestTable.mem_requests_iff.mpr ⟨id, live⟩
          · rwa [Request.unanswered, known]
      | some bytes =>
          have aliases_eq := wellFormed.aliases_eq_nil live known
          obtain rfl : occurrence = request.occurrence := by
            simpa [Request.occurrences, Request.places, aliases_eq] using member
          exact List.mem_append_right _
            (List.mem_map_of_mem (Addressed.mem_bodies_of_live live known))
    · obtain ⟨bytes, found⟩ := Staging.digestAt?_eq_some_iff.mp staged
      exact List.mem_append_right _ (List.mem_map_of_mem (Addressed.mem_bodies_of_staged found))
  · intro member
    rw [waitingNodes, List.flatMap_nil, List.append_nil, List.mem_append] at member
    rcases member with waiting | placed
    · obtain ⟨request, request_mem, member⟩ := List.mem_flatMap.mp waiting
      obtain ⟨id, live⟩ := RequestTable.live?_eq_of_mem_requests request_mem
      refine .inl ⟨id, request, live, ?_⟩
      unfold Request.unanswered at member
      split at member
      · exact member
      · simp at member
    · obtain ⟨⟨_, bytes⟩, body, rfl⟩ := List.mem_map.mp placed
      rcases mem_bodies_iff.mp body with ⟨id, request, live, -, rfl⟩ | staged
      · exact .inl ⟨id, request, live, request.occurrence_mem_occurrences⟩
      · exact .inr (Staging.digestAt?_eq_some_iff.mpr ⟨bytes, staged⟩)

theorem Addressed.occupies_of_works {call : Call} {start : Scheduler}
    (h : Addressed H [] scheduler past) (coherent : Coherent [] scheduler)
    (no_trie : ∀ occurrence, call ≠ .addSubTrie occurrence)
    (turn : Turn H scheduler call tasks start) (start_coherent : Coherent tasks start)
    (works : Works H store tasks start after) (occupies : scheduler.Occupies occurrence) :
    after.Occupies occurrence := by
  obtain ⟨skipped, start_addressed⟩ := h.turn coherent no_trie turn
  have after_coherent := works.coherent start_coherent
  rw [occupies_iff coherent.counted.wellFormed] at occupies
  rw [occupies_iff after_coherent.counted.wellFormed]
  exact (start_addressed.works_subset start_coherent works).2
    ((advance_of_turn coherent no_trie turn).subset occupies)

end occupies

/-- What was scheduled waits or is dealt with, and what is still to be scheduled is at further
places. -/
structure Charted (H : Hash) (tasks : List Task) (scheduler : Scheduler)
    (scheduled done : List Occurrence) : Prop where
  layout : Layout (tasks.flatMap Task.schedules ++ waitingNodes tasks scheduler) done
  scheduled_perm : scheduled.Perm (waitingNodes tasks scheduler ++ done)
  bodies : scheduler.bodies.map Prod.fst ⊆ done
  references : ∀ {occurrence bytes references}, (occurrence, bytes) ∈ scheduler.bodies →
    scheduler.schema.references H occurrence.path bytes = .ok references →
      references.nodes ⊆ tasks.flatMap Task.schedules ++ scheduled

namespace Charted

variable {done : List Occurrence}

theorem advance {added : List Occurrence} (h : Charted H tasks scheduler scheduled done)
    (schema_eq : after.schema = scheduler.schema)
    (advance : Advance H tasks scheduler added new after) :
    ∃ done, Charted H new after (scheduled ++ added) done := by
  cases advance with
  | wait schedules_eq waiting_perm bodies_perm =>
      refine ⟨done, ?_, ?_, List.Subset.trans (bodies_perm.map _).subset h.bodies, ?_⟩
      · refine h.layout.perm ?_ (.refl _)
        rw [schedules_eq, List.append_assoc]
        exact (List.perm_append_comm_assoc _ _ _).trans (waiting_perm.symm.append_left _)
      · refine (h.scheduled_perm.append_right _).trans ?_
        refine .trans ?_ (waiting_perm.symm.append_right _)
        rw [List.append_assoc added]
        exact List.perm_append_comm
      · intro other known references member decoded
        rw [schema_eq] at decoded
        refine List.Subset.trans (h.references (bodies_perm.mem_iff.mp member) decoded) ?_
        rw [schedules_eq, List.append_assoc]
        refine List.Perm.subset (List.perm_append_comm.trans (.of_eq ?_))
        exact List.append_assoc _ _ _
  | @settle occurrence added_eq schedules_eq waiting_perm bodies_perm =>
      have scheduled_perm := List.perm_append_singleton occurrence scheduled
      rw [added_eq]
      refine ⟨occurrence :: done, ?_, ?_, ?_, ?_⟩
      · have layout := h.layout
        rw [schedules_eq] at layout
        exact layout.settle.perm (waiting_perm.symm.append_left _) (.refl _)
      · refine scheduled_perm.trans ((h.scheduled_perm.cons occurrence).trans ?_)
        exact List.perm_middle.symm.trans (waiting_perm.symm.append_right _)
      · refine List.Subset.trans (bodies_perm.map _).subset ?_
        exact List.Subset.trans h.bodies (List.subset_cons_self _ _)
      · intro other known references member decoded
        rw [schema_eq] at decoded
        refine List.Subset.trans (h.references (bodies_perm.mem_iff.mp member) decoded) ?_
        rw [schedules_eq]
        exact (List.perm_middle.symm.trans (scheduled_perm.symm.append_left _)).subset
  | @put occurrence bytes references rest added_eq decoded schedules_eq waiting_perm after_perm
      bodies_perm =>
      rw [added_eq, List.append_nil]
      refine ⟨occurrence :: done, ?_, ?_, ?_, ?_⟩
      · have layout := h.layout.perm ((waiting_perm.append_left _).trans List.perm_middle) (.refl _)
        refine (layout.expand (Schema.references_below decoded)).perm ?_ (.refl _)
        rw [schedules_eq, List.append_assoc]
        exact (after_perm.symm.append_left _).append_left _
      · exact (h.scheduled_perm.trans (waiting_perm.append_right _)).trans
          (List.perm_middle.symm.trans (after_perm.symm.append_right _))
      · exact List.Subset.trans (bodies_perm.map _).subset (List.cons_subset_cons _ h.bodies)
      · intro other known references' member decoded'
        rw [schema_eq] at decoded'
        rw [schedules_eq, List.append_assoc]
        exact references_subset_of_put bodies_perm decoded h.references member decoded'

theorem ofRoot (H : Hash) (schema : Schema) (root : Digest) :
    Charted H [.node none ⟨.root, root⟩] (idle schema) [] [] := by
  have bodies_eq : (idle schema).bodies = [] := by
    simp [Scheduler.bodies, idle, RequestTable.requests, RequestTable.empty, Staging.empty]
  have waiting_eq : waitingNodes [.node none ⟨.root, root⟩] (idle schema) = [] := by
    simp [waitingNodes, unanswered, Task.puts, idle, RequestTable.requests, RequestTable.empty]
  refine ⟨?_, by simp [waiting_eq], by simp [bodies_eq], by simp [bodies_eq]⟩
  rw [waiting_eq]
  exact ⟨by simp [Task.schedules], by simp [Task.schedules]⟩

theorem commit (h : Charted H [] scheduler scheduled done) :
    Charted H [] { scheduler with staging := .empty } scheduled done := by
  have bodies_subset : Scheduler.bodies { scheduler with staging := .empty } ⊆ scheduler.bodies := by
    simp [Scheduler.bodies, Staging.empty]
  exact ⟨h.layout, h.scheduled_perm, List.Subset.trans (List.map_subset _ bodies_subset) h.bodies,
    fun member => h.references (bodies_subset member)⟩

theorem nodup_scheduled (h : Charted H tasks scheduler scheduled done) :
    (scheduled.map Occurrence.path).Nodup := by
  refine (h.scheduled_perm.map _).nodup_iff.mpr ?_
  refine h.layout.nodup.sublist (List.Sublist.map _ ?_)
  exact (List.sublist_append_right _ _).append (List.Sublist.refl _)

theorem mem_scheduled (h : Charted H [] scheduler scheduled done)
    (wellFormed : scheduler.requests.WellFormed) (claims : Claims H scheduler occurrence) :
    occurrence ∈ scheduled := by
  have of_occupies (occupies : scheduler.Occupies occurrence) : occurrence ∈ scheduled := by
    refine h.scheduled_perm.mem_iff.mpr ?_
    rcases List.mem_append.mp ((occupies_iff wellFormed).mp occupies) with waiting | placed
    · exact List.mem_append_left _ waiting
    · exact List.mem_append_right _ (h.bodies placed)
  cases claims with
  | request live member => exact of_occupies (.inl ⟨_, _, live, member⟩)
  | staged staged => exact of_occupies (.inr (Staging.digestAt?_eq_some_iff.mpr ⟨_, staged⟩))
  | reference body decoded member =>
      exact h.references body decoded (List.mem_of_mem_filter member)

end Charted

end Scheduler

end TrieSync
