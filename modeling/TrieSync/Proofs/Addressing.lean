import TrieSync.Proofs.Session
import TrieSync.Proofs.Walk

/-!
A scheduler that synchronizes one trie never meets two nodes at one place, nor a node that it knows
below one that it still misses.
-/

namespace TrieSync

/-- Where a request still misses its node. -/
def Request.unanswered (request : Request) : List Occurrence :=
  match request.bytes with
  | none => request.occurrences
  | some _ => []

/-- The node of a request whose bytes are known. -/
def Request.body (request : Request) : List (Occurrence × Bytes) :=
  match request.bytes with
  | none => []
  | some bytes => [(request.occurrence, bytes)]

/-- The node of a request at every place that it has or misses it. -/
def Request.claimed (request : Request) : List Occurrence :=
  request.unanswered ++ request.body.map Prod.fst

/-- Where a write puts a node. -/
def Put.occurrence? : Put → Option Occurrence
  | node occurrence _ => some occurrence
  | code _ _ => none

theorem Put.mem_occurrences_iff {puts : List Put} {occurrence : Occurrence} :
    occurrence ∈ puts.filterMap Put.occurrence? ↔ ∃ bytes, .node occurrence bytes ∈ puts := by
  rw [List.mem_filterMap]
  constructor
  · rintro ⟨_ | _, member, same⟩
    · exact ⟨_, Option.some.inj same ▸ member⟩
    · simp [Put.occurrence?] at same
  · exact fun ⟨_, member⟩ => ⟨_, member, rfl⟩

theorem Request.mem_body_iff {request : Request} {occurrence : Occurrence} {bytes : Bytes} :
    (occurrence, bytes) ∈ request.body ↔
      request.bytes = some bytes ∧ request.occurrence = occurrence := by
  cases known : request.bytes <;> simp [Request.body, known, eq_comm, and_comm]

/-- The nodes that are not empty among those that a node refers to. -/
def References.present (H : Hash) (references : References) : List Occurrence :=
  references.nodes.filter fun node => node.digest ≠ emptyRoot H

namespace Scheduler

variable {H : Hash} {store : Store} {task : Task} {tasks new : List Task}
  {scheduler after : Scheduler} {past : List Occurrence}

/-- Where nodes are still missing. -/
def missingNodes (H : Hash) (tasks : List Task) (scheduler : Scheduler) : List Occurrence :=
  scheduler.requests.requests.flatMap Request.unanswered ++ tasks.flatMap (Task.opens H)

/-- The nodes that are staged or wait for what they refer to. -/
def bodies (scheduler : Scheduler) : List (Occurrence × Bytes) :=
  scheduler.requests.requests.flatMap Request.body ++
    scheduler.staging.nodes.toList.map fun (path, digest, bytes) => (⟨path, digest⟩, bytes)

theorem mem_bodies_iff {occurrence : Occurrence} {bytes : Bytes} :
    (occurrence, bytes) ∈ scheduler.bodies ↔
      (∃ id request, scheduler.requests.live? id = some request ∧ request.bytes = some bytes ∧
        request.occurrence = occurrence) ∨
      scheduler.staging.nodes[occurrence.path]? = some (occurrence.digest, bytes) := by
  rw [bodies, List.mem_append, List.mem_flatMap]
  refine or_congr ?_ ?_
  · simp only [RequestTable.mem_requests_iff, Request.mem_body_iff]
    exact ⟨fun ⟨request, ⟨id, live⟩, facts⟩ => ⟨id, request, live, facts⟩,
      fun ⟨id, request, live, facts⟩ => ⟨request, ⟨id, live⟩, facts⟩⟩
  · rw [← Std.TreeMap.mem_toList_iff_getElem?_eq_some, List.mem_map]
    constructor
    · rintro ⟨⟨path, digest, staged⟩, member, same⟩
      obtain ⟨rfl, rfl⟩ := Prod.mk.inj same
      exact member
    · exact fun member => ⟨_, member, rfl⟩

/-- Where nodes are at their places now, or were in the past. -/
def placedNodes (scheduler : Scheduler) (past : List Occurrence) : List Occurrence :=
  scheduler.bodies.map Prod.fst ++ past

/-- The own places of live requests, the other places that wait for them, and those at which nodes
are staged. -/
def occupied (scheduler : Scheduler) : List Path :=
  scheduler.requests.requests.flatMap Request.paths ++
    scheduler.staging.nodes.toList.map Prod.fst

/-- All nodes are at places of their own, and those that a node refers to are known. -/
structure Addressed (H : Hash) (tasks : List Task) (scheduler : Scheduler)
    (past : List Occurrence) : Prop where
  layout : Layout (missingNodes H tasks scheduler) (placedNodes scheduler past)
  references : ∀ {occurrence bytes references}, (occurrence, bytes) ∈ scheduler.bodies →
    scheduler.schema.references H occurrence.path bytes = .ok references →
      references.present H ⊆ missingNodes H tasks scheduler ++ placedNodes scheduler past

/-- What the beginning of a call or a step makes of the nodes that are missing and of those that
are at their places. -/
inductive Shift (H : Hash) (known : Digest → Bytes → Prop) (tasks : List Task)
    (scheduler : Scheduler) (new : List Task) (after : Scheduler) : Prop
  | keep (missing_perm : (missingNodes H new after).Perm (missingNodes H tasks scheduler))
      (bodies_perm : after.bodies.Perm scheduler.bodies)
  | skip {occurrence : Occurrence}
      (missing_perm : (occurrence :: missingNodes H new after).Perm (missingNodes H tasks scheduler))
      (bodies_perm : after.bodies.Perm scheduler.bodies)
  | put {occurrence : Occurrence} {bytes : Bytes} {references : References}
      {rest : List Occurrence} (bytes_known : known occurrence.digest bytes)
      (decoded : scheduler.schema.references H occurrence.path bytes = .ok references)
      (missing_perm : (missingNodes H tasks scheduler).Perm (occurrence :: rest))
      (after_perm : (missingNodes H new after).Perm (references.present H ++ rest))
      (bodies_perm : after.bodies.Perm ((occurrence, bytes) :: scheduler.bodies))

section contributions

variable {α : Type} {id : RequestId} {request : Request}

theorem flatMap_awaited_perm (scheduler : Scheduler) (parent : Option RequestId)
    (f : Request → List α) (same : ∀ request pending, f { request with pending } = f request) :
    ((scheduler.awaited parent).requests.requests.flatMap f).Perm
      (scheduler.requests.requests.flatMap f) := by
  unfold awaited
  split
  · exact .refl _
  · split
    · exact .refl _
    · rename_i request live
      obtain ⟨rest, requests_perm, set_perm, -⟩ := RequestTable.exists_flatMap_perm live f
      refine (set_perm _).trans ?_
      rw [same]
      exact requests_perm.symm

private theorem unanswered_pending (request : Request) (pending : Nat) :
    Request.unanswered { request with pending } = request.unanswered := rfl

private theorem body_pending (request : Request) (pending : Nat) :
    Request.body { request with pending } = request.body := rfl

theorem missingNodes_awaited_perm (tasks : List Task) (scheduler : Scheduler)
    (parent : Option RequestId) :
    (missingNodes H tasks (scheduler.awaited parent)).Perm (missingNodes H tasks scheduler) :=
  (flatMap_awaited_perm scheduler parent _ unanswered_pending).append_right _

theorem bodies_awaited_perm (scheduler : Scheduler) (parent : Option RequestId) :
    (scheduler.awaited parent).bodies.Perm scheduler.bodies := by
  unfold bodies
  rw [staging_awaited]
  exact (flatMap_awaited_perm scheduler parent _ body_pending).append_right _

theorem missingNodes_ask_perm (wellFormed : scheduler.requests.WellFormed) (tasks : List Task)
    (occurrence : Occurrence) (parents : List RequestId) :
    (missingNodes H tasks (scheduler.ask occurrence parents)).Perm
      (occurrence :: missingNodes H tasks scheduler) :=
  ((RequestTable.requests_allocate_perm wellFormed
    (.waiting occurrence parents none)).flatMap_right Request.unanswered).append_right _

theorem bodies_ask_perm (wellFormed : scheduler.requests.WellFormed)
    (occurrence : Occurrence) (parents : List RequestId) :
    (scheduler.ask occurrence parents).bodies.Perm scheduler.bodies :=
  ((RequestTable.requests_allocate_perm wellFormed
    (.waiting occurrence parents none)).flatMap_right Request.body).append_right _

theorem missingNodes_insertFetched_perm (wellFormed : scheduler.requests.WellFormed)
    (tasks : List Task) {occurrence : Occurrence} {bytes : Bytes} {parents : List RequestId}
    {requests : RequestTable}
    (inserted : scheduler.requests.insertFetched occurrence bytes parents = (id, requests)) :
    (missingNodes H tasks { scheduler with requests }).Perm (missingNodes H tasks scheduler) :=
  ((RequestTable.requests_insertFetched_perm wellFormed inserted).flatMap_right
    Request.unanswered).append_right _

theorem bodies_insertFetched_perm (wellFormed : scheduler.requests.WellFormed)
    {occurrence : Occurrence} {bytes : Bytes} {parents : List RequestId} {requests : RequestTable}
    (inserted : scheduler.requests.insertFetched occurrence bytes parents = (id, requests)) :
    (bodies { scheduler with requests }).Perm ((occurrence, bytes) :: scheduler.bodies) :=
  ((RequestTable.requests_insertFetched_perm wellFormed inserted).flatMap_right
    Request.body).append_right _

theorem missingNodes_linked_perm (tasks : List Task)
    (live : scheduler.requests.live? id = some request) (unknown : request.bytes = none)
    {occurrence : Occurrence} (parent : Option RequestId)
    (digest_eq : request.occurrence.digest = occurrence.digest)
    (new_path : occurrence.path ∉ request.paths) :
    (missingNodes H tasks { scheduler with
      requests := scheduler.requests.linked id request occurrence.path parent }).Perm
      (occurrence :: missingNodes H tasks scheduler) := by
  obtain ⟨rest, requests_perm, set_perm, -⟩ :=
    RequestTable.exists_flatMap_perm live Request.unanswered
  have unanswered_eq : (request.link occurrence.path parent).unanswered =
      request.unanswered ++ [occurrence] := by
    rw [Request.link_of_notMem _ _ _ new_path]
    simp [Request.unanswered, unknown, Request.occurrences, Request.places, digest_eq]
  have linked_perm := set_perm (request.link occurrence.path parent)
  rw [unanswered_eq, List.append_assoc, ← RequestTable.requests_linked] at linked_perm
  exact ((linked_perm.trans List.perm_middle).trans
    (requests_perm.symm.cons occurrence)).append_right _

theorem bodies_linked_perm (live : scheduler.requests.live? id = some request)
    (unknown : request.bytes = none) (path : Path) (parent : Option RequestId) :
    (bodies { scheduler with
      requests := scheduler.requests.linked id request path parent }).Perm scheduler.bodies := by
  obtain ⟨rest, requests_perm, set_perm, -⟩ := RequestTable.exists_flatMap_perm live Request.body
  refine List.Perm.append_right _ ?_
  rw [RequestTable.requests_linked]
  refine (set_perm _).trans (.trans (.of_eq ?_) requests_perm.symm)
  simp [Request.body, unknown]

theorem missingNodes_setPending_perm (tasks : List Task)
    (live : scheduler.requests.live? id = some request) (pending : Nat) :
    (missingNodes H tasks { scheduler with
      requests := scheduler.requests.set id { request with pending } }).Perm
      (missingNodes H tasks scheduler) := by
  obtain ⟨rest, requests_perm, set_perm, -⟩ :=
    RequestTable.exists_flatMap_perm live Request.unanswered
  exact ((set_perm { request with pending }).trans requests_perm.symm).append_right _

theorem bodies_setPending_perm (live : scheduler.requests.live? id = some request)
    (pending : Nat) :
    (bodies { scheduler with
      requests := scheduler.requests.set id { request with pending } }).Perm scheduler.bodies := by
  obtain ⟨rest, requests_perm, set_perm, -⟩ := RequestTable.exists_flatMap_perm live Request.body
  exact ((set_perm { request with pending }).trans requests_perm.symm).append_right _

theorem missingNodes_complete_perm (tasks : List Task) {bytes : Bytes}
    (live : scheduler.requests.live? id = some request) (known : request.bytes = some bytes) :
    (missingNodes H tasks (complete { scheduler with
        requests := scheduler.requests.set id { request with pending := 0 } } id
      { request with pending := 0 } bytes)).Perm (missingNodes H tasks scheduler) := by
  have set_live := RequestTable.live?_set_self live { request with pending := 0 }
  obtain ⟨rest, requests_perm, -, remove_eq⟩ :=
    RequestTable.exists_flatMap_perm set_live Request.unanswered
  refine .trans (List.Perm.append_right _ ?_) (missingNodes_setPending_perm tasks live 0)
  rw [Scheduler.complete, remove_eq]
  simpa [Request.unanswered, known] using requests_perm.symm

theorem bodies_complete_perm {bytes : Bytes} (live : scheduler.requests.live? id = some request)
    (known : request.bytes = some bytes)
    (absent : scheduler.staging.nodes[request.occurrence.path]? = none) :
    (bodies (complete { scheduler with
        requests := scheduler.requests.set id { request with pending := 0 } } id
      { request with pending := 0 } bytes)).Perm scheduler.bodies := by
  have set_live := RequestTable.live?_set_self live { request with pending := 0 }
  obtain ⟨rest, requests_perm, -, remove_eq⟩ :=
    RequestTable.exists_flatMap_perm set_live Request.body
  refine .trans ?_ (bodies_setPending_perm live 0)
  have staged_perm := (Entries.toList_insert_perm (request.occurrence.digest, bytes) absent).map
    fun entry : Path × Digest × Bytes =>
      ((⟨entry.1, entry.2.1⟩, entry.2.2) : Occurrence × Bytes)
  have body_eq : Request.body { request with pending := 0 } = [(request.occurrence, bytes)] := by
    simp [Request.body, known]
  rw [body_eq] at requests_perm
  rw [bodies, Scheduler.complete, remove_eq]
  refine (staged_perm.append_left _).trans ?_
  exact List.perm_middle.trans (requests_perm.symm.append_right _)

theorem missingNodes_append_perm (new tasks : List Task) (scheduler : Scheduler) :
    (missingNodes H (new ++ tasks) scheduler).Perm
      (new.flatMap (Task.opens H) ++ missingNodes H tasks scheduler) := by
  unfold missingNodes
  rw [List.flatMap_append]
  exact List.perm_append_comm_assoc _ _ _

theorem missingNodes_cons_perm (task : Task) (tasks : List Task) (scheduler : Scheduler) :
    (missingNodes H (task :: tasks) scheduler).Perm
      (task.opens H ++ missingNodes H tasks scheduler) := by
  have perm := missingNodes_append_perm (H := H) [task] tasks scheduler
  rwa [List.flatMap_cons, List.flatMap_nil, List.append_nil] at perm

theorem flatMap_opens_tasks (references : References) (id : RequestId) (path : Path) :
    (references.tasks id path).flatMap (Task.opens H) = references.present H := by
  have codes_eq : (references.codes.map (Task.code (some id) path)).flatMap (Task.opens H) = [] := by
    simp [List.flatMap_map, Task.opens]
  have nodes_eq : (references.nodes.map (Task.node (some id))).flatMap (Task.opens H) =
      references.present H := by
    unfold References.present
    induction references.nodes with
    | nil => rfl
    | cons node nodes ih =>
        rw [List.map_cons, List.flatMap_cons, ih, List.filter_cons]
        by_cases empty : node.digest = emptyRoot H <;> simp [Task.opens, empty]
  rw [References.tasks, List.flatMap_append, List.flatMap_append, nodes_eq, codes_eq]
  simp [Task.opens]

theorem references_subset_of_put {schema : Schema} {occurrence : Occurrence} {bytes : Bytes}
    {references : References} {f : References → List Occurrence} {rest : List Occurrence}
    (bodies_perm : after.bodies.Perm ((occurrence, bytes) :: scheduler.bodies))
    (decoded : schema.references H occurrence.path bytes = .ok references)
    (others : ∀ {other known references}, (other, known) ∈ scheduler.bodies →
      schema.references H other.path known = .ok references → f references ⊆ rest)
    {other : Occurrence} {known : Bytes} {found : References} (member : (other, known) ∈ after.bodies)
    (found_eq : schema.references H other.path known = .ok found) :
    f found ⊆ f references ++ rest := by
  rcases List.mem_cons.mp (bodies_perm.mem_iff.mp member) with same | member
  · obtain ⟨rfl, rfl⟩ := Prod.mk.inj same
    obtain rfl := Except.ok.inj (decoded.symm.trans found_eq)
    exact List.subset_append_left _ _
  · exact List.subset_append_of_subset_right _ (others member found_eq)

end contributions

namespace Addressed

variable {occurrence : Occurrence}

theorem perm (h : Addressed H tasks scheduler past) (schema_eq : after.schema = scheduler.schema)
    (missing_perm : (missingNodes H new after).Perm (missingNodes H tasks scheduler))
    (bodies_perm : after.bodies.Perm scheduler.bodies) : Addressed H new after past where
  layout := h.layout.perm missing_perm.symm ((bodies_perm.symm.map _).append_right _)
  references {occurrence bytes references} member decoded := by
    rw [schema_eq] at decoded
    refine List.Subset.trans (h.references (bodies_perm.mem_iff.mp member) decoded) ?_
    exact (missing_perm.append ((bodies_perm.map _).append_right _)).symm.subset

theorem past_perm {other : List Occurrence} (h : Addressed H tasks scheduler past)
    (perm : past.Perm other) : Addressed H tasks scheduler other where
  layout := h.layout.perm (.refl _) (perm.append_left _)
  references member decoded :=
    List.Subset.trans (h.references member decoded) ((perm.append_left _).append_left _).subset

theorem skip (h : Addressed H tasks scheduler past) (schema_eq : after.schema = scheduler.schema)
    (missing_perm : (occurrence :: missingNodes H new after).Perm (missingNodes H tasks scheduler))
    (bodies_perm : after.bodies.Perm scheduler.bodies) :
    Addressed H new after (occurrence :: past) := by
  have placed_perm : (occurrence :: placedNodes scheduler past).Perm
      (placedNodes after (occurrence :: past)) :=
    List.perm_middle.symm.trans ((bodies_perm.symm.map _).append_right _)
  refine ⟨((h.layout.perm missing_perm.symm (.refl _)).settle).perm (.refl _) placed_perm, ?_⟩
  intro other bytes references member decoded
  rw [schema_eq] at decoded
  refine List.Subset.trans (h.references (bodies_perm.mem_iff.mp member) decoded) ?_
  refine ((missing_perm.symm.append_right _).trans (.trans ?_ (placed_perm.append_left _))).subset
  exact List.perm_middle.symm

/-- A node that is missing is put at its place, where it waits for what it refers to. -/
theorem put (h : Addressed H tasks scheduler past) (schema_eq : after.schema = scheduler.schema)
    {bytes : Bytes} {references : References} {rest : List Occurrence}
    (decoded : scheduler.schema.references H occurrence.path bytes = .ok references)
    (missing_perm : (missingNodes H tasks scheduler).Perm (occurrence :: rest))
    (after_perm : (missingNodes H new after).Perm (references.present H ++ rest))
    (bodies_perm : after.bodies.Perm ((occurrence, bytes) :: scheduler.bodies)) :
    Addressed H new after past := by
  have placed_perm : (placedNodes after past).Perm (occurrence :: placedNodes scheduler past) :=
    (bodies_perm.map _).append_right _
  have below : Below occurrence.path (references.present H) :=
    (Schema.references_below decoded).filter _
  have known_perm : (missingNodes H new after ++ placedNodes after past).Perm
      (references.present H ++ (missingNodes H tasks scheduler ++ placedNodes scheduler past)) := by
    refine (after_perm.append placed_perm).trans ?_
    rw [List.append_assoc]
    refine List.Perm.append_left _ ?_
    exact List.perm_middle.trans (missing_perm.symm.append_right _)
  refine ⟨((h.layout.perm missing_perm (.refl _)).expand below).perm after_perm.symm
    placed_perm.symm, ?_⟩
  intro other known references' member decoded'
  rw [schema_eq] at decoded'
  exact List.Subset.trans (references_subset_of_put bodies_perm decoded h.references member decoded')
    known_perm.symm.subset

theorem shift {known : Digest → Bytes → Prop} (h : Addressed H tasks scheduler past)
    (schema_eq : after.schema = scheduler.schema)
    (shift : Shift H known tasks scheduler new after) :
    ∃ skipped, Addressed H new after (skipped ++ past) := by
  cases shift with
  | keep missing_perm bodies_perm => exact ⟨[], h.perm schema_eq missing_perm bodies_perm⟩
  | @skip occurrence missing_perm bodies_perm =>
      exact ⟨[occurrence], h.skip schema_eq missing_perm bodies_perm⟩
  | put _ decoded missing_perm after_perm bodies_perm =>
      exact ⟨[], h.put schema_eq decoded missing_perm after_perm bodies_perm⟩

section step

theorem notMem_staged (h : Addressed H tasks scheduler past) {id : RequestId} {request : Request}
    {bytes : Bytes} (live : scheduler.requests.live? id = some request)
    (known : request.bytes = some bytes) :
    scheduler.staging.nodes[request.occurrence.path]? = none := by
  cases staged : scheduler.staging.nodes[request.occurrence.path]? with
  | none => rfl
  | some entry =>
      have nodup := h.layout.nodup
      rw [List.map_append, placedNodes, List.map_append] at nodup
      have bodies_nodup := nodup.of_append_right.of_append_left
      rw [bodies, List.map_append, List.map_append] at bodies_nodup
      refine (List.disjoint_of_nodup_append bodies_nodup (a := request.occurrence.path) ?_ ?_).elim
      · refine List.mem_map.mpr ⟨request.occurrence, List.mem_map.mpr
          ⟨(request.occurrence, bytes), List.mem_flatMap.mpr ⟨request, ?_, ?_⟩, rfl⟩, rfl⟩
        · exact RequestTable.mem_requests_iff.mpr ⟨id, live⟩
        · simp [Request.body, known]
      · have member := Std.TreeMap.mem_toList_iff_getElem?_eq_some.mpr staged
        exact List.mem_map.mpr ⟨_, List.mem_map.mpr ⟨_, List.mem_map_of_mem member, rfl⟩, rfl⟩

theorem mem_missingNodes {id : RequestId} {request : Request}
    (live : scheduler.requests.live? id = some request) (unknown : request.bytes = none)
    (member : occurrence ∈ request.occurrences) : occurrence ∈ missingNodes H tasks scheduler := by
  refine List.mem_append_left _ (List.mem_flatMap.mpr ⟨request, ?_, ?_⟩)
  · exact RequestTable.mem_requests_iff.mpr ⟨id, live⟩
  · rwa [Request.unanswered, unknown]

theorem mem_bodies_of_live {id : RequestId} {request : Request} {bytes : Bytes}
    (live : scheduler.requests.live? id = some request) (known : request.bytes = some bytes) :
    (request.occurrence, bytes) ∈ scheduler.bodies :=
  mem_bodies_iff.mpr (.inl ⟨id, request, live, known, rfl⟩)

theorem mem_bodies_of_staged {path : Path} {digest : Digest} {bytes : Bytes}
    (staged : scheduler.staging.nodes[path]? = some (digest, bytes)) :
    (⟨path, digest⟩, bytes) ∈ scheduler.bodies :=
  mem_bodies_iff.mpr (.inr staged)

theorem nodup_occupied (h : Addressed H tasks scheduler past)
    (wellFormed : scheduler.requests.WellFormed) : scheduler.occupied.Nodup := by
  have claimed_eq : (scheduler.requests.requests.flatMap Request.claimed).map Occurrence.path =
      scheduler.requests.requests.flatMap Request.paths := by
    rw [List.map_flatMap]
    refine List.flatMap_congr fun request member => ?_
    obtain ⟨id, live⟩ := RequestTable.live?_eq_of_mem_requests member
    cases known : request.bytes with
    | none => simp [Request.claimed, Request.unanswered, Request.body, known,
        Request.map_path_occurrences]
    | some bytes => simp [Request.claimed, Request.unanswered, Request.body, known, Request.paths,
        wellFormed.aliases_eq_nil live known]
  have staged_eq : (scheduler.staging.nodes.toList.map fun (path, digest, bytes) =>
      ((⟨path, digest⟩, bytes) : Occurrence × Bytes)).map (fun body => body.1.path) =
        scheduler.staging.nodes.toList.map Prod.fst := List.map_map
  have fetched_eq : (scheduler.requests.requests.flatMap Request.body).map Prod.fst =
      scheduler.requests.requests.flatMap fun request => request.body.map Prod.fst :=
    List.map_flatMap
  have claimed_perm := List.flatMap_append_perm scheduler.requests.requests Request.unanswered
    fun request => request.body.map Prod.fst
  rw [occupied, ← claimed_eq]
  refine List.Nodup.perm ?_ ((claimed_perm.map Occurrence.path).append_right _)
  refine h.layout.nodup.sublist ?_
  rw [missingNodes, placedNodes, bodies, ← staged_eq, ← fetched_eq]
  simp only [List.map_append, List.append_assoc, List.map_map]
  refine (List.Sublist.refl _).append (.trans ?_ (List.sublist_append_right _ _))
  exact (List.Sublist.refl _).append (List.sublist_append_left _ _)

theorem id_eq_of_mem_paths (h : Addressed H tasks scheduler past)
    (wellFormed : scheduler.requests.WellFormed) {id other : RequestId} {request current : Request}
    {path : Path} (live : scheduler.requests.live? id = some request)
    (other_live : scheduler.requests.live? other = some current) (member : path ∈ request.paths)
    (other_member : path ∈ current.paths) : id = other := by
  have nodup := (h.nodup_occupied wellFormed).of_append_left
  by_contra distinct
  obtain ⟨rest, requests_perm, -, remove_eq⟩ := RequestTable.exists_flatMap_perm live Request.paths
  have current_mem : path ∈ rest := by
    have removed_live := (RequestTable.live?_remove live request other).trans (if_neg distinct)
    rw [← remove_eq request]
    exact List.mem_flatMap.mpr ⟨current,
      RequestTable.mem_requests_iff.mpr ⟨other, removed_live.trans other_live⟩, other_member⟩
  exact List.disjoint_of_nodup_append (nodup.perm requests_perm) member current_mem

/-- A node that is about to be put or asked for is at a place that no other node is known at. -/
theorem path_ne_of_opens {known : Occurrence} (h : Addressed H (task :: tasks) scheduler past)
    (opens : task.opens H = [occurrence])
    (member : known ∈ missingNodes H tasks scheduler ++ placedNodes scheduler past) :
    known.path ≠ occurrence.path := by
  have perm := missingNodes_cons_perm (H := H) task tasks scheduler
  rw [opens, List.singleton_append] at perm
  have nodup := (h.layout.perm perm (.refl _)).nodup
  intro same
  exact (List.nodup_cons.mp nodup).1 (same ▸ List.mem_map_of_mem member)

theorem notMem_paths (h : Addressed H (task :: tasks) scheduler past)
    (wellFormed : scheduler.requests.WellFormed) (opens : task.opens H = [occurrence])
    {id : RequestId} {request : Request} (live : scheduler.requests.live? id = some request) :
    occurrence.path ∉ request.paths := by
  intro member
  cases known : request.bytes with
  | none =>
      rw [← Request.map_path_occurrences] at member
      obtain ⟨other, other_mem, path_eq⟩ := List.mem_map.mp member
      exact path_ne_of_opens h opens
        (List.mem_append_left _ (mem_missingNodes live known other_mem)) path_eq
  | some bytes =>
      have aliases_eq := wellFormed.aliases_eq_nil live known
      have path_eq : occurrence.path = request.occurrence.path := by
        simpa [Request.paths, aliases_eq] using member
      refine path_ne_of_opens h opens (List.mem_append_right _ ?_) path_eq.symm
      exact List.mem_append_left _ (List.mem_map_of_mem (mem_bodies_of_live live known))

theorem shift_of_step {schema : Schema} {known : Digest → Bytes → Prop}
    (h : Addressed H (task :: tasks) scheduler past) (coherent : Coherent (task :: tasks) scheduler)
    (holds : Holds schema known (task :: tasks) scheduler)
    (step : Step H store scheduler task new after) :
    Shift H known (task :: tasks) scheduler (new ++ tasks) after := by
  have wellFormed := coherent.counted.wellFormed
  have perm := missingNodes_cons_perm (H := H) task tasks scheduler
  have keep (missing_perm : (missingNodes H (new ++ tasks) after).Perm
        (task.opens H ++ missingNodes H tasks scheduler))
      (bodies_perm : after.bodies.Perm scheduler.bodies) :
      Shift H known (task :: tasks) scheduler (new ++ tasks) after :=
    .keep (missing_perm.trans perm.symm) bodies_perm
  cases step with
  | skipEmpty digest_eq => exact keep (by simp [Task.opens, digest_eq]) (.refl _)
  | @skipStaged parent occurrence staged =>
      by_cases empty : occurrence.digest = emptyRoot H
      · exact keep (by simp [Task.opens, empty]) (.refl _)
      · -- A node that is staged at the place would be known there, where this one is still missing.
        obtain ⟨bytes, found⟩ := Staging.digestAt?_eq_some_iff.mp staged
        have placed : occurrence ∈ scheduler.bodies.map Prod.fst :=
          List.mem_map.mpr ⟨_, mem_bodies_of_staged found, rfl⟩
        have path_ne := path_ne_of_opens h (if_neg empty)
          (List.mem_append_right _ (List.mem_append_left past placed))
        exact absurd rfl path_ne
  | @skipStored parent occurrence unscheduled notStaged notLive stored =>
      have missing_perm : (occurrence :: missingNodes H tasks scheduler).Perm
          (missingNodes H (.node parent occurrence :: tasks) scheduler) := by
        simpa [Task.opens, unscheduled.digest_ne] using perm.symm
      exact .skip missing_perm (.refl _)
  | @joinHere parent occurrence id request digest_ne responsible live digest_eq =>
      obtain ⟨old, old_live, member⟩ := wellFormed.byPath_live responsible
      exact absurd member (notMem_paths h wellFormed (if_neg digest_ne) old_live)
  | @joinElsewhere parent occurrence id request unscheduled notStaged unknown live bytes_eq
      digest_eq =>
      obtain ⟨pending, old_live⟩ := exists_live_of_awaited live
      have new_path := notMem_paths h wellFormed (if_neg unscheduled.digest_ne) old_live
      refine keep ?_ ((bodies_linked_perm live bytes_eq _ _).trans (bodies_awaited_perm _ _))
      simp only [Task.opens, unscheduled.digest_ne, if_false, List.singleton_append]
      exact (missingNodes_linked_perm tasks live bytes_eq parent digest_eq new_path).trans
        ((missingNodes_awaited_perm tasks scheduler parent).cons occurrence)
  | @copy parent occurrence bytes unscheduled known =>
      refine keep ?_ (bodies_awaited_perm _ _)
      simp only [Task.opens, unscheduled.digest_ne, if_false]
      exact (missingNodes_cons_perm _ _ _).trans
        ((missingNodes_awaited_perm tasks scheduler parent).append_left _)
  | @ask parent occurrence unscheduled notStaged notLive notStored =>
      have awaited_wellFormed := wellFormed_awaited wellFormed parent
      refine keep ?_ ((bodies_ask_perm awaited_wellFormed _ _).trans (bodies_awaited_perm _ _))
      simp only [Task.opens, unscheduled.digest_ne, if_false, List.singleton_append]
      exact (missingNodes_ask_perm awaited_wellFormed tasks _ _).trans
        ((missingNodes_awaited_perm tasks scheduler parent).cons occurrence)
  | skipCode => exact keep (.refl _) (.refl _)
  | @askCode parent path digest notStaged notStored =>
      exact keep (missingNodes_awaited_perm tasks scheduler parent) (bodies_awaited_perm _ _)
  | @askAgain occurrence bytes parents cause undecodable =>
      exact keep (missingNodes_ask_perm wellFormed tasks _ _) (bodies_ask_perm wellFormed _ _)
  | @resolve occurrence bytes parents references id requests decoded inserted =>
      refine .put (holds.placed List.mem_cons_self) decoded perm ?_ ?_
      · refine (missingNodes_append_perm _ tasks _).trans ?_
        rw [flatMap_opens_tasks]
        exact ((missingNodes_awaited_perm tasks _ _).trans
          (missingNodes_insertFetched_perm wellFormed tasks inserted)).append_left _
      · exact (bodies_awaited_perm _ _).trans (bodies_insertFetched_perm wellFormed inserted)
  | count live pending_eq waits =>
      exact keep (missingNodes_setPending_perm tasks live _) (bodies_setPending_perm live _)
  | @complete id request bytes live pending_eq known =>
      have releases_eq : (request.parents.reverse.map Task.release).flatMap (Task.opens H) = [] := by
        simp [Task.opens]
      refine keep ((missingNodes_append_perm _ tasks _).trans ?_)
        (bodies_complete_perm live known (h.notMem_staged live known))
      rw [releases_eq]
      exact missingNodes_complete_perm tasks live known

theorem step (h : Addressed H (task :: tasks) scheduler past)
    (coherent : Coherent (task :: tasks) scheduler) (step : Step H store scheduler task new after) :
    ∃ skipped, Addressed H (new ++ tasks) after (skipped ++ past) := by
  have holds : Holds scheduler.schema (fun _ _ => True) (task :: tasks) scheduler :=
    ⟨rfl, fun _ => trivial, fun _ => trivial⟩
  exact h.shift step.schema_eq (h.shift_of_step coherent holds step)

end step

theorem works (h : Addressed H tasks scheduler past) (coherent : Coherent tasks scheduler)
    (works : Works H store tasks scheduler after) :
    ∃ skipped, Addressed H [] after (skipped ++ past) := by
  refine (works.keeps (fun tasks scheduler =>
    ∃ skipped, Addressed H tasks scheduler (skipped ++ past)) ?_ coherent ⟨[], h⟩).2
  rintro task tasks scheduler new after coherent ⟨skipped, addressed⟩ step
  obtain ⟨more, addressed⟩ := addressed.step coherent step
  exact ⟨more ++ skipped, by rwa [List.append_assoc]⟩

section turn

variable {call : Call} {start : Scheduler}

theorem received_perm {id : RequestId} {request : Request} (tasks : List Task)
    (live : scheduler.requests.live? id = some request) (unknown : request.bytes = none)
    (bytes : Bytes) :
    (missingNodes H tasks scheduler).Perm (request.occurrence ::
        ((request.copies bytes).flatMap (Task.opens H) ++
          missingNodes H tasks (scheduler.received id request bytes))) ∧
      (scheduler.received id request bytes).bodies.Perm
        ((request.occurrence, bytes) :: scheduler.bodies) := by
  have copies_eq : (request.copies bytes).flatMap (Task.opens H) =
      request.occurrences.tail := by
    simp only [Request.copies, List.flatMap_map, Task.opens, Request.occurrences, Request.places,
      List.map_cons, List.tail_cons, List.map_map]
    induction request.aliases with
    | nil => rfl
    | cons first rest ih => rw [List.flatMap_cons, ih]; rfl
  have occurrences_eq : request.occurrence :: request.occurrences.tail = request.occurrences := rfl
  constructor
  · obtain ⟨rest, requests_perm, set_perm, -⟩ :=
      RequestTable.exists_flatMap_perm live Request.unanswered
    have unanswered_eq : request.unanswered = request.occurrences := by
      rw [Request.unanswered, unknown]
    have received_perm := set_perm { request with bytes := some bytes, aliases := [] }
    rw [copies_eq, ← List.cons_append, occurrences_eq, ← unanswered_eq]
    refine (requests_perm.append_right _).trans ?_
    rw [List.append_assoc]
    exact (received_perm.symm.append_right _).append_left _
  · obtain ⟨rest, requests_perm, set_perm, -⟩ :=
      RequestTable.exists_flatMap_perm live Request.body
    have body_eq : request.body = [] := by rw [Request.body, unknown]
    rw [body_eq, List.nil_append] at requests_perm
    have received_perm := set_perm { request with bytes := some bytes, aliases := [] }
    exact (received_perm.trans (requests_perm.symm.cons _)).append_right _

theorem shift_of_turn {known : Digest → Bytes → Prop} (coherent : Coherent [] scheduler)
    (no_trie : ∀ occurrence, call ≠ .addSubTrie occurrence)
    (delivered : ∀ {path bytes}, call = .processNode path bytes → known (H bytes) bytes)
    (turn : Turn H scheduler call tasks start) : Shift H known [] scheduler tasks start := by
  cases turn with
  | addSubTrie => exact absurd rfl (no_trie _)
  | addCode | missing => exact .keep (.refl _) (.refl _)
  | @processNode path bytes id request references responsible inFlight live path_eq digest_eq
      decoded =>
      have unknown := coherent.counted.wellFormed.unknown_of_inFlight inFlight live
      subst path_eq
      obtain ⟨missing_perm, bodies_perm⟩ := received_perm (H := H) [] live unknown bytes
      refine .put (digest_eq ▸ delivered rfl) decoded missing_perm ?_
        ((bodies_awaited_perm _ _).trans bodies_perm)
      refine (missingNodes_append_perm (references.tasks id _) (request.copies bytes) _).trans ?_
      rw [flatMap_opens_tasks]
      refine List.Perm.append_left _ ?_
      have copies_perm := missingNodes_append_perm (H := H) (request.copies bytes) []
        ((scheduler.received id request bytes).awaited (some id))
      rw [List.append_nil] at copies_perm
      exact copies_perm.trans ((missingNodes_awaited_perm [] _ _).append_left _)
  | @processCode digest bytes inFlight digest_eq =>
      refine .keep (.of_eq ?_) (.refl _)
      simp [missingNodes, Task.opens]

theorem turn (h : Addressed H [] scheduler past) (coherent : Coherent [] scheduler)
    (no_trie : ∀ occurrence, call ≠ .addSubTrie occurrence)
    (turn : Turn H scheduler call tasks start) :
    ∃ skipped, Addressed H tasks start (skipped ++ past) := by
  have shift : Shift H (fun _ _ => True) [] scheduler tasks start :=
    shift_of_turn coherent no_trie (fun _ => trivial) turn
  exact h.shift turn.schema_eq shift

end turn

theorem ofRoot (H : Hash) (schema : Schema) (root : Digest) :
    Addressed H [.node none ⟨.root, root⟩] (idle schema) [] := by
  have bodies_eq : (idle schema).bodies = [] := by
    simp [bodies, idle, RequestTable.requests, RequestTable.empty, Staging.empty]
  have missing_eq : missingNodes H [.node none ⟨.root, root⟩] (idle schema) =
      if root = emptyRoot H then [] else [⟨.root, root⟩] := by
    simp [missingNodes, idle, RequestTable.requests, RequestTable.empty, Task.opens]
  refine ⟨?_, by simp [bodies_eq]⟩
  rw [missing_eq, placedNodes, bodies_eq]
  split
  · exact ⟨.nil, by simp⟩
  · exact ⟨by simp, by simp⟩

theorem commit (h : Addressed H [] scheduler past) :
    Addressed H [] { scheduler with staging := .empty }
      (past ++ scheduler.staging.puts.filterMap Put.occurrence?) := by
  have puts_eq : scheduler.staging.puts.filterMap Put.occurrence? =
      scheduler.staging.nodes.toList.map fun entry => ⟨entry.1, entry.2.1⟩ := by
    have nodes_eq : scheduler.staging.nodes.toList.filterMap
        (fun entry => (Put.node ⟨entry.1, entry.2.1⟩ entry.2.2).occurrence?) =
          scheduler.staging.nodes.toList.map fun entry => ⟨entry.1, entry.2.1⟩ :=
      congrFun List.filterMap_eq_map scheduler.staging.nodes.toList
    have codes_eq : scheduler.staging.codes.toList.filterMap
        (fun entry => (Put.code entry.1 entry.2).occurrence?) = [] := by
      simp [Put.occurrence?]
    rw [Staging.puts, List.filterMap_append, List.filterMap_map, List.filterMap_map]
    exact (congrArg₂ (· ++ ·) nodes_eq codes_eq).trans (List.append_nil _)
  have fetched_eq : bodies { scheduler with staging := .empty } =
      scheduler.requests.requests.flatMap Request.body := by
    simp [bodies, Staging.empty]
  have placed_perm : (placedNodes scheduler past).Perm
      (placedNodes { scheduler with staging := .empty }
        (past ++ scheduler.staging.puts.filterMap Put.occurrence?)) := by
    rw [placedNodes, placedNodes, fetched_eq, puts_eq, bodies, List.map_append, List.map_map,
      List.append_assoc]
    exact List.perm_append_comm.append_left _
  refine ⟨h.layout.perm (.refl _) placed_perm, ?_⟩
  intro occurrence bytes references member decoded
  rw [fetched_eq] at member
  refine List.Subset.trans (h.references (List.mem_append_left _ member) decoded) ?_
  exact (placed_perm.append_left _).subset

end Addressed

/-- A node is claimed at a place: a request is responsible for it there, or it is staged there, or
a node that is staged or waits for its references refers to it. -/
inductive Claims (H : Hash) (scheduler : Scheduler) : Occurrence → Prop
  | request {id : RequestId} {request : Request} {occurrence : Occurrence}
      (live : scheduler.requests.live? id = some request)
      (member : occurrence ∈ request.occurrences) : Claims H scheduler occurrence
  | staged {path : Path} {digest : Digest} {bytes : Bytes}
      (staged : scheduler.staging.nodes[path]? = some (digest, bytes)) :
      Claims H scheduler ⟨path, digest⟩
  | reference {occurrence node : Occurrence} {bytes : Bytes} {references : References}
      (body : (occurrence, bytes) ∈ scheduler.bodies)
      (decoded : scheduler.schema.references H occurrence.path bytes = .ok references)
      (member : node ∈ references.present H) : Claims H scheduler node

/-- No place is claimed for two different nodes. -/
def Unambiguous (H : Hash) (scheduler : Scheduler) : Prop :=
  ∀ {left right}, Claims H scheduler left → Claims H scheduler right →
    left.path = right.path → left = right

theorem Addressed.unambiguous (h : Addressed H tasks scheduler past)
    (coherent : Coherent tasks scheduler) : Unambiguous H scheduler := by
  have known {occurrence : Occurrence} (claims : Claims H scheduler occurrence) :
      occurrence ∈ missingNodes H tasks scheduler ++ placedNodes scheduler past := by
    have placed {entry : Occurrence × Bytes} (body : entry ∈ scheduler.bodies) :
        entry.1 ∈ missingNodes H tasks scheduler ++ placedNodes scheduler past :=
      List.mem_append_right _ (List.mem_append_left _ (List.mem_map_of_mem body))
    cases claims with
    | @request id request _ live member =>
        cases bytes_eq : request.bytes with
        | none => exact List.mem_append_left _ (mem_missingNodes live bytes_eq member)
        | some bytes =>
            have aliases_eq := coherent.counted.wellFormed.aliases_eq_nil live bytes_eq
            obtain rfl : occurrence = request.occurrence := by
              simpa [Request.occurrences, Request.places, aliases_eq] using member
            exact placed (mem_bodies_of_live live bytes_eq)
    | staged staged => exact placed (mem_bodies_of_staged staged)
    | reference body decoded member => exact h.references body decoded member
  exact fun _ _ left right path_eq => h.layout.eq_of_path_eq (known left) (known right) path_eq

end Scheduler

namespace Session

open Scheduler

variable {H : Hash} {session next : Session} {action : Action} {past : List Occurrence}

/-- Where nodes were put. -/
def putNodes (session : Session) : List Occurrence :=
  session.written.filterMap Put.occurrence?

theorem Step.addressed (step : Step H session action next) (coherent : Coherent [] session.scheduler)
    (no_trie : ∀ occurrence, action ≠ .call (.addSubTrie occurrence))
    (h : Addressed H [] session.scheduler (past ++ session.putNodes)) :
    ∃ skipped, Addressed H [] next.scheduler (skipped ++ next.putNodes) := by
  cases step with
  | refuse | commitNothing | commitRefused | rejectWrites => exact ⟨past, h⟩
  | perform turn start_coherent works =>
      have no_trie_call occurrence := fun same => no_trie occurrence (congrArg Action.call same)
      obtain ⟨opened, start_addressed⟩ := h.turn coherent no_trie_call turn
      obtain ⟨skipped, addressed⟩ := start_addressed.works start_coherent works
      refine ⟨skipped ++ (opened ++ past), addressed.past_perm (.of_eq ?_)⟩
      simp [putNodes]
  | commit =>
      refine ⟨past, h.commit.past_perm (.of_eq ?_)⟩
      simp [putNodes, List.filterMap_append]

end Session

end TrieSync
