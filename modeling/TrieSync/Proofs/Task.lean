import TrieSync.Proofs.Counting

/-!
The work of a scheduler within one call, as a list of tasks of which the first comes next. Whatever
every single step of that work keeps true is true when the call returns.
-/

namespace TrieSync

/-- What is still to be done within a call. -/
inductive Task
  /-- Schedule a node that a parent refers to. -/
  | node (parent : Option RequestId) (occurrence : Occurrence)
  /-- Schedule code that a parent at a place refers to. -/
  | code (parent : Option RequestId) (path : Path) (digest : Digest)
  /-- Put a node whose bytes are known at a place, where requests wait for it. -/
  | place (occurrence : Occurrence) (bytes : Bytes) (parents : List RequestId)
  /-- Drop one reference of a request. -/
  | release (id : RequestId)

namespace Task

/-- The references that a task holds. -/
def held : Task → List RequestId
  | node _ _ => []
  | code _ _ _ => []
  | place _ _ parents => parents
  | release id => [id]

/-- The request that a task adds a reference to. -/
def parent? : Task → Option RequestId
  | node parent _ => parent
  | code parent _ _ => parent
  | place _ _ _ => none
  | release _ => none

/-- A request that references are added to is held open until all of them are. -/
def HeldOpen : List Task → Prop
  | [] => True
  | task :: tasks => (∀ id ∈ task.parent?, release id ∈ tasks) ∧ HeldOpen tasks

theorem HeldOpen.release_mem {tasks : List Task} (h : HeldOpen tasks) {task : Task}
    (member : task ∈ tasks) {id : RequestId} (parent : id ∈ task.parent?) : release id ∈ tasks := by
  induction tasks with
  | nil => simp at member
  | cons first rest ih =>
      refine List.mem_cons_of_mem _ ?_
      rcases List.mem_cons.mp member with rfl | member
      · exact h.1 id parent
      · exact ih h.2 member

end Task

/-- Schedule what a request refers to, and then stop holding it open. -/
def References.tasks (references : References) (id : RequestId) (path : Path) : List Task :=
  references.nodes.map (.node (some id)) ++
    (references.codes.map (.code (some id) path) ++ [.release id])

namespace Scheduler

/-- A parent, if there is one, waits for one more reference. -/
def awaited (scheduler : Scheduler) : Option RequestId → Scheduler
  | none => scheduler
  | some id =>
      match scheduler.requests.live? id with
      | none => scheduler
      | some request =>
          { scheduler with
            requests := scheduler.requests.set id { request with pending := request.pending + 1 } }

theorem await_eq {scheduler : Scheduler} {parent : Option RequestId}
    (live : ∀ id ∈ parent, ∃ request, scheduler.requests.live? id = some request) :
    scheduler.await parent = .ok (scheduler.awaited parent) := by
  cases parent with
  | none => rfl
  | some id =>
      obtain ⟨request, live⟩ := live id rfl
      simp only [await, awaited, live, RequestTable.await_eq live]
      rfl

section awaited

variable (scheduler : Scheduler) (parent : Option RequestId)

theorem live?_awaited (other : RequestId) :
    (scheduler.awaited parent).requests.live? other =
      (scheduler.requests.live? other).map fun request =>
        if parent = some other then { request with pending := request.pending + 1 }
        else request := by
  cases parent with
  | none => simp [awaited]
  | some id =>
      cases live : scheduler.requests.live? id with
      | none =>
          simp only [awaited, live]
          by_cases same : id = other
          · subst same
            simp [live]
          · simp [same]
      | some request =>
          simp only [awaited, live, RequestTable.live?_set_of_live live]
          by_cases same : id = other
          · subst same
            simp [live]
          · simp [same]

@[simp] theorem byPath_awaited :
    (scheduler.awaited parent).requests.byPath = scheduler.requests.byPath := by
  unfold awaited
  split
  · rfl
  · split <;> rfl

@[simp] theorem byDigest_awaited :
    (scheduler.awaited parent).requests.byDigest = scheduler.requests.byDigest := by
  unfold awaited
  split
  · rfl
  · split <;> rfl

@[simp] theorem inFlight_awaited :
    (scheduler.awaited parent).requests.inFlight = scheduler.requests.inFlight := by
  unfold awaited
  split
  · rfl
  · split <;> rfl

@[simp] theorem queue_awaited :
    (scheduler.awaited parent).requests.queue = scheduler.requests.queue := by
  unfold awaited
  split
  · rfl
  · split <;> rfl

@[simp] theorem schema_awaited : (scheduler.awaited parent).schema = scheduler.schema := by
  unfold awaited
  split
  · rfl
  · split <;> rfl

@[simp] theorem staging_awaited : (scheduler.awaited parent).staging = scheduler.staging := by
  unfold awaited
  split
  · rfl
  · split <;> rfl

@[simp] theorem codes_awaited : (scheduler.awaited parent).codes = scheduler.codes := by
  unfold awaited
  split
  · rfl
  · split <;> rfl

variable {scheduler parent}

theorem exists_live_of_awaited {id : RequestId} {request : Request}
    (live : (scheduler.awaited parent).requests.live? id = some request) :
    ∃ pending, scheduler.requests.live? id = some { request with pending } := by
  rw [live?_awaited] at live
  obtain ⟨old, old_live, old_eq⟩ := Option.map_eq_some_iff.mp live
  refine ⟨old.pending, ?_⟩
  rw [old_live, ← old_eq]
  split <;> rfl

theorem exists_awaited_of_live (parent : Option RequestId) {id : RequestId} {request : Request}
    (live : scheduler.requests.live? id = some request) :
    ∃ pending, (scheduler.awaited parent).requests.live? id = some { request with pending } := by
  rw [live?_awaited, live]
  by_cases same : parent = some id
  · exact ⟨_, by simp only [Option.map_some, same, if_true]; rfl⟩
  · exact ⟨request.pending, by simp only [Option.map_some, same, if_false]⟩

theorem wellFormed_awaited (h : scheduler.requests.WellFormed) (parent : Option RequestId) :
    (scheduler.awaited parent).requests.WellFormed := by
  unfold awaited
  split
  · exact h
  · split
    · exact h
    · rename_i live
      exact h.setPending live _

theorem Counted.awaited {held : List RequestId} (h : Counted held scheduler)
    (live : ∀ id ∈ parent, ∃ request, scheduler.requests.live? id = some request) :
    Counted (parent.toList ++ held) (scheduler.awaited parent) := by
  cases parent with
  | none => exact h
  | some id =>
      obtain ⟨request, live⟩ := live id rfl
      simp only [Scheduler.awaited, live]
      exact h.await live

end awaited

theorem live?_ask {scheduler : Scheduler} (h : scheduler.requests.WellFormed) (occurrence : Occurrence)
    (parents : List RequestId) (other : RequestId) :
    (scheduler.ask occurrence parents).requests.live? other =
      if (scheduler.requests.allocate (.waiting occurrence parents none)).1 = other then
        some (.waiting occurrence parents none)
      else scheduler.requests.live? other :=
  RequestTable.live?_allocate h _ other

theorem live?_ask_self {scheduler : Scheduler} (h : scheduler.requests.WellFormed)
    (occurrence : Occurrence) (parents : List RequestId) :
    (scheduler.ask occurrence parents).requests.live?
      (scheduler.requests.allocate (.waiting occurrence parents none)).1 =
        some (.waiting occurrence parents none) :=
  (live?_ask h occurrence parents _).trans (if_pos rfl)

theorem live?_ask_of_live {scheduler : Scheduler} (h : scheduler.requests.WellFormed)
    (occurrence : Occurrence) (parents : List RequestId) {id : RequestId} {request : Request}
    (live : scheduler.requests.live? id = some request) :
    (scheduler.ask occurrence parents).requests.live? id = some request :=
  RequestTable.live?_allocate_of_live h _ live

theorem ask_cases {scheduler : Scheduler} (h : scheduler.requests.WellFormed)
    {occurrence : Occurrence} {parents : List RequestId} {id : RequestId} {request : Request}
    (live : (scheduler.ask occurrence parents).requests.live? id = some request) :
    scheduler.requests.live? id = some request ∨
      request = .waiting occurrence parents none ∧ scheduler.requests.live? id = none ∧
        (scheduler.ask occurrence parents).requests.queue =
          scheduler.requests.queue.insert occurrence.path id := by
  rw [live?_ask h] at live
  split at live
  · rename_i fresh
    have unused := RequestTable.live?_allocate_fst h (.waiting occurrence parents none)
    refine .inr ⟨(Option.some.inj live).symm, fresh ▸ unused, ?_⟩
    rw [ask, RequestTable.queue_insert, fresh]
  · exact .inl live

theorem live?_insertFetched {scheduler : Scheduler} (h : scheduler.requests.WellFormed)
    {occurrence : Occurrence} {bytes : Bytes} {parents : List RequestId} {id : RequestId}
    {requests : RequestTable}
    (inserted : scheduler.requests.insertFetched occurrence bytes parents = (id, requests))
    (other : RequestId) :
    requests.live? other =
      if id = other then some (.waiting occurrence parents (some bytes))
      else scheduler.requests.live? other := by
  have live_eq := RequestTable.live?_allocate h (.waiting occurrence parents (some bytes)) other
  rw [RequestTable.insertFetched] at inserted
  rwa [inserted] at live_eq

theorem live?_insertFetched_self {scheduler : Scheduler} (h : scheduler.requests.WellFormed)
    {occurrence : Occurrence} {bytes : Bytes} {parents : List RequestId} {id : RequestId}
    {requests : RequestTable}
    (inserted : scheduler.requests.insertFetched occurrence bytes parents = (id, requests)) :
    requests.live? id = some (.waiting occurrence parents (some bytes)) :=
  (live?_insertFetched h inserted id).trans (if_pos rfl)

theorem live?_insertFetched_of_live {scheduler : Scheduler} (h : scheduler.requests.WellFormed)
    {occurrence : Occurrence} {bytes : Bytes} {parents : List RequestId} {fresh : RequestId}
    {requests : RequestTable}
    (inserted : scheduler.requests.insertFetched occurrence bytes parents = (fresh, requests))
    {id : RequestId} {request : Request} (live : scheduler.requests.live? id = some request) :
    requests.live? id = some request := by
  have kept := RequestTable.live?_allocate_of_live h (.waiting occurrence parents (some bytes)) live
  rw [RequestTable.insertFetched] at inserted
  rwa [inserted] at kept

theorem insertFetched_cases {scheduler : Scheduler} (h : scheduler.requests.WellFormed)
    {occurrence : Occurrence} {bytes : Bytes} {parents : List RequestId} {fresh : RequestId}
    {requests : RequestTable}
    (inserted : scheduler.requests.insertFetched occurrence bytes parents = (fresh, requests))
    {id : RequestId} {request : Request} (live : requests.live? id = some request) :
    fresh ≠ id ∧ scheduler.requests.live? id = some request ∨
      fresh = id ∧ request = .waiting occurrence parents (some bytes) ∧
        scheduler.requests.live? id = none := by
  rw [live?_insertFetched h inserted] at live
  split at live
  · rename_i same
    have unused := RequestTable.live?_allocate_fst h (.waiting occurrence parents (some bytes))
    have fresh_eq : (scheduler.requests.allocate (.waiting occurrence parents (some bytes))).1 = id :=
      (congrArg Prod.fst inserted).trans same
    exact .inr ⟨same, (Option.some.inj live).symm, fresh_eq ▸ unused⟩
  · exact .inl ⟨‹_›, live⟩

theorem live?_completed {scheduler : Scheduler} {id : RequestId} {request : Request}
    (live : scheduler.requests.live? id = some request) (bytes : Bytes) (other : RequestId) :
    (complete { scheduler with
        requests := scheduler.requests.set id { request with pending := 0 } } id
      { request with pending := 0 } bytes).requests.live? other =
      if id = other then none else scheduler.requests.live? other := by
  have set_live := RequestTable.live?_set_self live { request with pending := 0 }
  rw [complete, RequestTable.live?_remove set_live]
  split
  · rfl
  · rename_i other_ne
    rw [RequestTable.live?_set_of_live live, if_neg other_ne]

/-- A node that is neither empty nor scheduled or staged at its place. -/
structure Unscheduled (H : Hash) (scheduler : Scheduler) (occurrence : Occurrence) : Prop where
  digest_ne : occurrence.digest ≠ emptyRoot H
  notScheduled : ∀ {id request}, scheduler.requests.byPath[occurrence.path]? = some id →
    scheduler.requests.live? id = some request →
      request.occurrence.digest ≠ occurrence.digest
  notStaged : scheduler.staging.digestAt? occurrence.path ≠ some occurrence.digest

/-- The bytes of a digest are known from a node that is staged or to be staged. -/
def Knows (scheduler : Scheduler) (digest : Digest) (bytes : Bytes) : Prop :=
  scheduler.staging.node? digest = some bytes ∨
    ∃ id request, scheduler.requests.live? id = some request ∧
      request.occurrence.digest = digest ∧ request.bytes = some bytes

theorem Knows.of_commit {scheduler : Scheduler} {digest : Digest} {bytes : Bytes}
    (h : Knows { scheduler with staging := .empty } digest bytes) : scheduler.Knows digest bytes :=
  h.elim (by simp) .inr

/-- What the first task does: it leaves further tasks to be done before the others, and a
scheduler. -/
inductive Step (H : Hash) (store : Store) (scheduler : Scheduler) :
    Task → List Task → Scheduler → Prop
  | skipEmpty {parent occurrence} (digest_eq : occurrence.digest = emptyRoot H) :
      Step H store scheduler (.node parent occurrence) [] scheduler
  | skipStaged {parent occurrence}
      (staged : scheduler.staging.digestAt? occurrence.path = some occurrence.digest) :
      Step H store scheduler (.node parent occurrence) [] scheduler
  | skipStored {parent occurrence} (unscheduled : Unscheduled H scheduler occurrence)
      (notStaged : scheduler.staging.node? occurrence.digest = none)
      (notLive : ∀ {id request}, scheduler.requests.live? id = some request →
        request.occurrence.digest ≠ occurrence.digest)
      (stored : store.hasNode occurrence = true) :
      Step H store scheduler (.node parent occurrence) [] scheduler
  | joinHere {parent occurrence id request} (digest_ne : occurrence.digest ≠ emptyRoot H)
      (responsible : scheduler.requests.byPath[occurrence.path]? = some id)
      (live : (scheduler.awaited parent).requests.live? id = some request)
      (digest_eq : request.occurrence.digest = occurrence.digest) :
      Step H store scheduler (.node parent occurrence) []
        { scheduler.awaited parent with
          requests := (scheduler.awaited parent).requests.linked id request occurrence.path parent }
  | joinElsewhere {parent occurrence id request} (unscheduled : Unscheduled H scheduler occurrence)
      (notStaged : scheduler.staging.node? occurrence.digest = none)
      (unknown : ∀ {id request}, scheduler.requests.live? id = some request →
        request.occurrence.digest = occurrence.digest → request.bytes = none)
      (live : (scheduler.awaited parent).requests.live? id = some request)
      (bytes_eq : request.bytes = none)
      (digest_eq : request.occurrence.digest = occurrence.digest) :
      Step H store scheduler (.node parent occurrence) []
        { scheduler.awaited parent with
          requests := (scheduler.awaited parent).requests.linked id request occurrence.path parent }
  | copy {parent occurrence bytes} (unscheduled : Unscheduled H scheduler occurrence)
      (known : scheduler.Knows occurrence.digest bytes) :
      Step H store scheduler (.node parent occurrence)
        [.place occurrence bytes parent.toList] (scheduler.awaited parent)
  | ask {parent occurrence} (unscheduled : Unscheduled H scheduler occurrence)
      (notStaged : scheduler.staging.node? occurrence.digest = none)
      (notLive : ∀ {id request}, scheduler.requests.live? id = some request →
        request.occurrence.digest ≠ occurrence.digest)
      (notStored : store.hasNode occurrence = false) :
      Step H store scheduler (.node parent occurrence) []
        ((scheduler.awaited parent).ask occurrence parent.toList)
  | skipCode {parent path digest}
      (present : scheduler.staging.hasCode digest = true ∨ store.hasCode digest = true) :
      Step H store scheduler (.code parent path digest) [] scheduler
  | askCode {parent path digest} (notStaged : scheduler.staging.hasCode digest = false)
      (notStored : store.hasCode digest = false) :
      Step H store scheduler (.code parent path digest) []
        { scheduler.awaited parent with
          codes := (scheduler.awaited parent).codes.insert digest path parent }
  | askAgain {occurrence bytes parents cause}
      (undecodable : scheduler.schema.references H occurrence.path bytes = .error cause) :
      Step H store scheduler (.place occurrence bytes parents) []
        (scheduler.ask occurrence parents)
  | resolve {occurrence bytes parents references id requests}
      (decoded : scheduler.schema.references H occurrence.path bytes = .ok references)
      (inserted : scheduler.requests.insertFetched occurrence bytes parents = (id, requests)) :
      Step H store scheduler (.place occurrence bytes parents) (references.tasks id occurrence.path)
        ({ scheduler with requests }.awaited (some id))
  | count {id request pending} (live : scheduler.requests.live? id = some request)
      (pending_eq : request.pending = pending + 1)
      (waits : pending ≠ 0 ∨ request.bytes = none) :
      Step H store scheduler (.release id) []
        { scheduler with requests := scheduler.requests.set id { request with pending } }
  | complete {id request bytes} (live : scheduler.requests.live? id = some request)
      (pending_eq : request.pending = 1) (known : request.bytes = some bytes) :
      Step H store scheduler (.release id) (request.parents.reverse.map .release)
        ({ scheduler with
            requests := scheduler.requests.set id { request with pending := 0 } }.complete id
          { request with pending := 0 } bytes)

/-- All that a scheduler waits for is counted, and requests stay open while it adds to them. -/
structure Coherent (tasks : List Task) (scheduler : Scheduler) : Prop where
  counted : Counted (tasks.flatMap Task.held) scheduler
  heldOpen : Task.HeldOpen tasks

namespace Coherent

variable {H : Hash} {store : Store} {task : Task} {tasks new : List Task}
  {scheduler after : Scheduler}

theorem live_of_held (h : Coherent tasks scheduler) {id : RequestId}
    (member : .release id ∈ tasks) : ∃ request, scheduler.requests.live? id = some request :=
  h.counted.live_of_mem <| List.mem_append_left _ <|
    List.mem_flatMap.mpr ⟨_, member, List.mem_singleton_self id⟩

theorem live_of_parent (h : Coherent (task :: tasks) scheduler) {id : RequestId}
    (parent : id ∈ task.parent?) : ∃ request, scheduler.requests.live? id = some request :=
  h.live_of_held (List.mem_cons_of_mem _ (h.heldOpen.1 id parent))

end Coherent

theorem heldOpen_tasks {references : References} {id : RequestId} {path : Path}
    {tasks : List Task} (h : Task.HeldOpen tasks) :
    Task.HeldOpen (references.tasks id path ++ tasks) := by
  have codes_open : ∀ codes : List Digest,
      Task.HeldOpen ((codes.map (.code (some id) path) ++ [.release id]) ++ tasks) := by
    intro codes
    induction codes with
    | nil => exact ⟨by simp [Task.parent?], h⟩
    | cons code codes ih => exact ⟨by simp [Task.parent?], ih⟩
  unfold References.tasks
  induction references.nodes with
  | nil => exact codes_open _
  | cons node nodes ih => exact ⟨by simp [Task.parent?], ih⟩

theorem heldOpen_releases {ids : List RequestId} {tasks : List Task}
    (h : Task.HeldOpen tasks) : Task.HeldOpen (ids.map .release ++ tasks) := by
  induction ids with
  | nil => exact h
  | cons id ids ih => exact ⟨by simp [Task.parent?], ih⟩

theorem flatMap_held_tasks (references : References) (id : RequestId) (path : Path) :
    (references.tasks id path).flatMap Task.held = [id] := by
  have nodes_eq : references.nodes.flatMap (fun _ => ([] : List RequestId)) = [] := by simp
  have codes_eq : references.codes.flatMap (fun _ => ([] : List RequestId)) = [] := by simp
  simp only [References.tasks, List.flatMap_append, List.flatMap_map, Task.held, nodes_eq, codes_eq,
    List.flatMap_cons, List.flatMap_nil, List.nil_append, List.append_nil]

theorem flatMap_held_releases (ids : List RequestId) :
    (ids.map Task.release).flatMap Task.held = ids := by
  simp [List.flatMap_map, Task.held]

theorem Coherent.step {H : Hash} {store : Store} {task : Task} {tasks new : List Task}
    {scheduler after : Scheduler} (h : Coherent (task :: tasks) scheduler)
    (step : Step H store scheduler task new after) : Coherent (new ++ tasks) after := by
  have heldOpen := h.heldOpen.2
  have counted := h.counted
  have awaited : Counted (task.parent?.toList ++ (task :: tasks).flatMap Task.held)
      (scheduler.awaited task.parent?) := counted.awaited fun _ => h.live_of_parent
  cases step with
  | skipEmpty | skipStaged | skipStored | skipCode => exact ⟨counted, heldOpen⟩
  | @joinHere parent occurrence id request digest_ne responsible live digest_eq =>
      refine ⟨awaited.link live ?_, heldOpen⟩
      intro bytes known
      obtain ⟨pending, old_live⟩ := exists_live_of_awaited live
      obtain ⟨old, old_live', member⟩ := counted.wellFormed.byPath_live responsible
      obtain rfl := Option.some.inj (old_live'.symm.trans old_live)
      have no_aliases := counted.wellFormed.aliases_eq_nil old_live (show _ = some bytes from known)
      simpa [Request.paths, show request.aliases = [] from no_aliases] using member
  | joinElsewhere unscheduled notStaged unknown live bytes_eq digest_eq =>
      exact ⟨awaited.link live (by simp [bytes_eq]), heldOpen⟩
  | copy unscheduled known => exact ⟨awaited, by simp [Task.parent?], heldOpen⟩
  | ask => exact ⟨awaited.ask _, heldOpen⟩
  | askCode => exact ⟨awaited.insertCode _ _, heldOpen⟩
  | askAgain => exact ⟨counted.ask _, heldOpen⟩
  | @resolve occurrence bytes parents references id requests decoded inserted =>
      have held : Counted (parents ++ tasks.flatMap Task.held) scheduler := counted
      have inserted_counted := held.insertFetched occurrence bytes
      rw [inserted] at inserted_counted
      have live := live?_insertFetched_self counted.wellFormed inserted
      refine ⟨?_, heldOpen_tasks heldOpen⟩
      rw [List.flatMap_append, flatMap_held_tasks]
      show Counted ((some id).toList ++ _) _
      refine inserted_counted.awaited ?_
      intro other same
      obtain rfl := Option.mem_some.mp same
      exact ⟨_, live⟩
  | count live pending_eq waits =>
      obtain ⟨request, pending, live', pending_eq', dropped⟩ := counted.drop
      obtain rfl := Option.some.inj (live.symm.trans live')
      obtain rfl := Nat.succ.inj (pending_eq.symm.trans pending_eq')
      exact ⟨dropped, heldOpen⟩
  | @complete id request bytes live pending_eq known =>
      obtain ⟨request, pending, live', pending_eq', dropped⟩ := counted.drop
      obtain rfl := Option.some.inj (live.symm.trans live')
      obtain rfl := Nat.succ.inj (pending_eq.symm.trans pending_eq')
      have set_live := RequestTable.live?_set_self live { request with pending := 0 }
      have completed := dropped.complete set_live rfl known
      refine ⟨completed.perm ?_, heldOpen_releases heldOpen⟩
      rw [List.flatMap_append, flatMap_held_releases]
      exact (List.reverse_perm _).symm.append_right _

section cases

variable {H : Hash} {store : Store} {task : Task} {new : List Task} {scheduler after : Scheduler}

theorem Step.schema_eq (step : Step H store scheduler task new after) :
    after.schema = scheduler.schema := by
  cases step with
  | skipEmpty | skipStaged | skipStored | skipCode | count | askAgain | complete => rfl
  | joinHere | joinElsewhere | copy | askCode | resolve => simp
  | ask => simp [Scheduler.ask]

theorem Step.staging_cases (step : Step H store scheduler task new after) :
    after.staging = scheduler.staging ∨
      ∃ id request bytes, task = .release id ∧ scheduler.requests.live? id = some request ∧
        request.pending = 1 ∧ request.bytes = some bytes ∧
        after.staging = scheduler.staging.insertNode request.occurrence bytes := by
  cases step with
  | skipEmpty | skipStaged | skipStored | skipCode | count | askAgain => exact .inl rfl
  | joinHere | joinElsewhere | copy | askCode | resolve => exact .inl (by simp)
  | ask => exact .inl (by simp [Scheduler.ask])
  | complete live pending_eq known => exact .inr ⟨_, _, _, rfl, live, pending_eq, known, rfl⟩

theorem Step.staged_cases (step : Step H store scheduler task new after) {path : Path}
    {digest : Digest} {bytes : Bytes}
    (staged : after.staging.nodes[path]? = some (digest, bytes)) :
    scheduler.staging.nodes[path]? = some (digest, bytes) ∨
      ∃ id request, task = .release id ∧ scheduler.requests.live? id = some request ∧
        request.pending = 1 ∧ request.bytes = some bytes ∧ request.occurrence = ⟨path, digest⟩ := by
  rcases step.staging_cases with
    staging_eq | ⟨id, request, found, task_eq, live, pending_eq, known, staging_eq⟩
  · exact .inl (staging_eq ▸ staged)
  · rw [staging_eq, Staging.nodes_insertNode] at staged
    split at staged
    · rename_i path_eq
      obtain ⟨rfl, rfl⟩ := Prod.mk.inj (Option.some.inj staged)
      exact .inr ⟨id, request, task_eq, live, pending_eq, known, by rw [← path_eq]⟩
    · exact .inl staged

theorem Step.node?_cases (step : Step H store scheduler task new after) {digest : Digest}
    {bytes : Bytes} (staged : after.staging.node? digest = some bytes) :
    scheduler.staging.node? digest = some bytes ∨
      ∃ id request, task = .release id ∧ scheduler.requests.live? id = some request ∧
        request.bytes = some bytes ∧ request.occurrence.digest = digest := by
  rcases step.staging_cases with
    staging_eq | ⟨id, request, found, task_eq, live, -, known, staging_eq⟩
  · exact .inl (staging_eq ▸ staged)
  · rw [staging_eq, Staging.node?_insertNode] at staged
    split at staged
    · rename_i digest_eq
      obtain rfl := Option.some.inj staged
      exact .inr ⟨id, request, task_eq, live, known, digest_eq⟩
    · exact .inl staged

theorem Step.staged_codes (step : Step H store scheduler task new after) :
    after.staging.codes = scheduler.staging.codes := by
  rcases step.staging_cases with staging_eq | ⟨_, _, _, -, -, -, -, staging_eq⟩
  all_goals simp [staging_eq]

theorem Step.codes_cases (step : Step H store scheduler task new after) :
    after.codes = scheduler.codes ∨
      ∃ parent path digest, task = .code parent path digest ∧
        scheduler.staging.hasCode digest = false ∧ store.hasCode digest = false ∧
        after.codes = scheduler.codes.insert digest path parent := by
  cases step with
  | skipEmpty | skipStaged | skipStored | skipCode | count | askAgain | complete => exact .inl rfl
  | joinHere | joinElsewhere | copy | resolve => exact .inl (by simp)
  | ask => exact .inl (by simp [Scheduler.ask])
  | askCode notStaged notStored => exact .inr ⟨_, _, _, rfl, notStaged, notStored, by simp⟩

theorem Step.code_cases (step : Step H store scheduler task new after)
    {parent : Option RequestId} {path : Path} {code : Digest}
    (member : .code parent path code ∈ new) :
    ∃ occurrence bytes parents references, task = .place occurrence bytes parents ∧
      scheduler.schema.references H occurrence.path bytes = .ok references ∧
      code ∈ references.codes := by
  cases step with
  | resolve decoded inserted =>
      refine ⟨_, _, _, _, rfl, decoded, ?_⟩
      simp only [References.tasks, List.mem_append, List.mem_map, List.mem_singleton] at member
      rcases member with ⟨node, -, same⟩ | ⟨other, other_mem, same⟩ | same
      · simp at same
      · exact (Task.code.inj same).2.2 ▸ other_mem
      · simp at same
  | complete => simp at member
  | _ => simp at member

/-- Where a request that is live after a step comes from: it was live before, or a node that is asked
for or put at a place has just been given its slot. -/
inductive Origin (H : Hash) (store : Store) (scheduler after : Scheduler) (id : RequestId) :
    Task → List Task → Request → Prop
  | kept {task new old pending} (live : scheduler.requests.live? id = some old)
      (waits : 0 < old.pending → 0 < pending ∨ old.bytes = none) :
      Origin H store scheduler after id task new { old with pending }
  | linked {parent occurrence old pending} (live : scheduler.requests.live? id = some old)
      (waits : 0 < old.pending → 0 < pending)
      (digest_ne : occurrence.digest ≠ emptyRoot H)
      (digest_eq : old.occurrence.digest = occurrence.digest) :
      Origin H store scheduler after id (.node parent occurrence) []
        ({ old with pending }.link occurrence.path parent)
  | asked {parent occurrence} (unused : scheduler.requests.live? id = none)
      (unscheduled : Unscheduled H scheduler occurrence)
      (notStaged : scheduler.staging.node? occurrence.digest = none)
      (notLive : ∀ {id request}, scheduler.requests.live? id = some request →
        request.occurrence.digest ≠ occurrence.digest)
      (notStored : store.hasNode occurrence = false)
      (queue_eq : after.requests.queue = scheduler.requests.queue.insert occurrence.path id) :
      Origin H store scheduler after id (.node parent occurrence) []
        (.waiting occurrence parent.toList none)
  | askedAgain {occurrence bytes parents cause} (unused : scheduler.requests.live? id = none)
      (undecodable : scheduler.schema.references H occurrence.path bytes = .error cause)
      (queue_eq : after.requests.queue = scheduler.requests.queue.insert occurrence.path id) :
      Origin H store scheduler after id (.place occurrence bytes parents) []
        (.waiting occurrence parents none)
  | placed {occurrence bytes parents references} (unused : scheduler.requests.live? id = none)
      (decoded : scheduler.schema.references H occurrence.path bytes = .ok references) :
      Origin H store scheduler after id (.place occurrence bytes parents)
        (references.tasks id occurrence.path)
        { Request.waiting occurrence parents (some bytes) with pending := 1 }

namespace Origin

private theorem exists_of_awaited {parent : Option RequestId} {id : RequestId} {request : Request}
    (live : (scheduler.awaited parent).requests.live? id = some request) :
    ∃ old pending, scheduler.requests.live? id = some old ∧ request = { old with pending } ∧
      old.pending ≤ pending := by
  rw [live?_awaited] at live
  obtain ⟨old, old_live, rfl⟩ := Option.map_eq_some_iff.mp live
  split
  · exact ⟨old, old.pending + 1, old_live, rfl, Nat.le_succ _⟩
  · exact ⟨old, old.pending, old_live, rfl, Nat.le_refl _⟩

private theorem of_awaited {parent : Option RequestId} {id : RequestId} {request : Request}
    (live : (scheduler.awaited parent).requests.live? id = some request) :
    Origin H store scheduler after id task new request := by
  obtain ⟨old, pending, old_live, rfl, pending_le⟩ := exists_of_awaited live
  exact .kept old_live fun positive => .inl (Nat.lt_of_lt_of_le positive pending_le)

private theorem of_linked {parent : Option RequestId} {occurrence : Occurrence}
    {id other : RequestId} {request current : Request} (digest_ne : occurrence.digest ≠ emptyRoot H)
    (current_live : (scheduler.awaited parent).requests.live? other = some current)
    (digest_eq : current.occurrence.digest = occurrence.digest)
    (live : ((scheduler.awaited parent).requests.linked other current occurrence.path
      parent).live? id = some request) :
    Origin H store scheduler after id (.node parent occurrence) [] request := by
  rw [RequestTable.live?_linked current_live] at live
  split at live
  · rename_i same
    subst same
    obtain rfl := Option.some.inj live
    obtain ⟨old, pending, old_live, rfl, pending_le⟩ := exists_of_awaited current_live
    exact .linked old_live (fun positive => Nat.lt_of_lt_of_le positive pending_le) digest_ne
      digest_eq
  · exact of_awaited live

private theorem of_insertFetched (wellFormed : scheduler.requests.WellFormed)
    {occurrence : Occurrence} {bytes : Bytes} {parents : List RequestId} {references : References}
    {id fresh : RequestId} {request : Request} {requests : RequestTable}
    (decoded : scheduler.schema.references H occurrence.path bytes = .ok references)
    (inserted : scheduler.requests.insertFetched occurrence bytes parents = (fresh, requests))
    (live : (awaited { scheduler with requests } (some fresh)).requests.live? id = some request) :
    Origin H store scheduler after id (.place occurrence bytes parents)
      (references.tasks fresh occurrence.path) request := by
  rw [live?_awaited] at live
  obtain ⟨old, old_live, rfl⟩ := Option.map_eq_some_iff.mp live
  rcases insertFetched_cases wellFormed inserted old_live with
    ⟨fresh_ne, old_live⟩ | ⟨rfl, rfl, unused⟩
  · rw [if_neg fun same => fresh_ne (Option.some.inj same)]
    exact .kept old_live .inl
  · rw [if_pos rfl]
    exact .placed unused decoded

end Origin

theorem Step.origin (wellFormed : scheduler.requests.WellFormed)
    (step : Step H store scheduler task new after) {id : RequestId} {request : Request}
    (live : after.requests.live? id = some request) :
    Origin H store scheduler after id task new request := by
  cases step with
  | skipEmpty | skipStaged | skipStored | skipCode => exact .kept live .inl
  | copy | askCode => exact .of_awaited live
  | joinHere digest_ne _ current_live digest_eq =>
      exact .of_linked digest_ne current_live digest_eq live
  | joinElsewhere unscheduled _ _ current_live _ digest_eq =>
      exact .of_linked unscheduled.digest_ne current_live digest_eq live
  | ask unscheduled notStaged notLive notStored =>
      rcases ask_cases (wellFormed_awaited wellFormed _) live with live | ⟨rfl, unused, queue_eq⟩
      · exact .of_awaited live
      · rw [live?_awaited, Option.map_eq_none_iff] at unused
        rw [queue_awaited] at queue_eq
        exact .asked unused unscheduled notStaged notLive notStored queue_eq
  | askAgain undecodable =>
      rcases ask_cases wellFormed live with live | ⟨rfl, unused, queue_eq⟩
      · exact .kept live .inl
      · exact .askedAgain unused undecodable queue_eq
  | resolve decoded inserted => exact .of_insertFetched wellFormed decoded inserted live
  | count current_live _ last =>
      rw [RequestTable.live?_set_of_live current_live] at live
      split at live
      · rename_i same
        subst same
        obtain rfl := Option.some.inj live
        exact .kept current_live fun _ => last.imp_left Nat.pos_of_ne_zero
      · exact .kept live .inl
  | complete current_live =>
      rw [live?_completed current_live] at live
      split at live
      · simp at live
      · exact .kept live .inl

theorem Step.request_kept (wellFormed : scheduler.requests.WellFormed)
    (step : Step H store scheduler task new after) {id : RequestId} {request : Request}
    (live : scheduler.requests.live? id = some request) :
    (∃ next, after.requests.live? id = some next ∧ request.Keeps next) ∨
      task = .release id ∧ request.pending = 1 ∧ request.bytes.isSome = true := by
  have of_awaited (parent : Option RequestId) :
      ∃ next, (scheduler.awaited parent).requests.live? id = some next ∧ request.Keeps next := by
    obtain ⟨pending, awaited_live⟩ := exists_awaited_of_live parent live
    exact ⟨_, awaited_live, request.keeps_setPending pending⟩
  have of_linked {parent : Option RequestId} {other : RequestId} {current : Request} (path : Path)
      (current_live : (scheduler.awaited parent).requests.live? other = some current) :
      ∃ next, ((scheduler.awaited parent).requests.linked other current path parent).live? id =
        some next ∧ request.Keeps next := by
    obtain ⟨next, next_live, kept⟩ := of_awaited parent
    rw [RequestTable.live?_linked current_live]
    split
    · rename_i same
      subst same
      obtain rfl := Option.some.inj (current_live.symm.trans next_live)
      exact ⟨_, rfl, kept.trans (current.keeps_link path parent)⟩
    · exact ⟨next, next_live, kept⟩
  have unchanged : request.Keeps request := request.keeps_setPending request.pending
  cases step with
  | skipEmpty | skipStaged | skipStored | skipCode => exact .inl ⟨request, live, unchanged⟩
  | joinHere digest_ne responsible current_live => exact .inl (of_linked _ current_live)
  | joinElsewhere unscheduled notStaged unknown current_live => exact .inl (of_linked _ current_live)
  | copy | askCode => exact .inl (of_awaited _)
  | @ask parent =>
      obtain ⟨next, next_live, kept⟩ := of_awaited parent
      exact .inl ⟨next, live?_ask_of_live (wellFormed_awaited wellFormed parent) _ _ next_live, kept⟩
  | askAgain => exact .inl ⟨request, live?_ask_of_live wellFormed _ _ live, unchanged⟩
  | @resolve occurrence bytes parents references fresh requests decoded inserted =>
      have inserted_live := live?_insertFetched_of_live wellFormed inserted live
      obtain ⟨pending, awaited_live⟩ :=
        @exists_awaited_of_live { scheduler with requests } (some fresh) id request inserted_live
      exact .inl ⟨_, awaited_live, request.keeps_setPending pending⟩
  | @count other current pending current_live =>
      refine .inl ?_
      simp only [RequestTable.live?_set_of_live current_live]
      split
      · rename_i same
        subst same
        obtain rfl := Option.some.inj (current_live.symm.trans live)
        exact ⟨_, rfl, current.keeps_setPending pending⟩
      · exact ⟨request, live, unchanged⟩
  | @complete other current bytes current_live pending_eq known =>
      by_cases same : other = id
      · subst same
        obtain rfl := Option.some.inj (current_live.symm.trans live)
        exact .inr ⟨rfl, pending_eq, by simp [known]⟩
      · exact .inl ⟨request, by rw [live?_completed current_live, if_neg same, live], unchanged⟩

theorem Step.completes {id : RequestId} {request : Request}
    (step : Step H store scheduler (.release id) new after)
    (live : scheduler.requests.live? id = some request) (last : request.pending = 1)
    (known : request.bytes.isSome = true) :
    ∃ bytes, request.bytes = some bytes ∧ after = Scheduler.complete { scheduler with
      requests := scheduler.requests.set id { request with pending := 0 } } id
        { request with pending := 0 } bytes := by
  cases step with
  | @count _ current pending current_live pending_eq waits =>
      obtain rfl := Option.some.inj (live.symm.trans current_live)
      obtain rfl : pending = 0 := Nat.succ.inj (pending_eq.symm.trans last)
      have unknown := waits.resolve_left (absurd rfl)
      simp [unknown] at known
  | complete current_live _ bytes_eq =>
      obtain rfl := Option.some.inj (live.symm.trans current_live)
      exact ⟨_, bytes_eq, rfl⟩

theorem Step.fetched_cases (wellFormed : scheduler.requests.WellFormed)
    (step : Step H store scheduler task new after) {id : RequestId} {request : Request}
    {bytes : Bytes} (live : after.requests.live? id = some request)
    (known : request.bytes = some bytes) :
    (∃ old, scheduler.requests.live? id = some old ∧ old.occurrence = request.occurrence ∧
      old.bytes = some bytes) ∨
    ∃ parents references, task = .place request.occurrence bytes parents ∧
      scheduler.schema.references H request.occurrence.path bytes = .ok references ∧
      new = references.tasks id request.occurrence.path := by
  cases step.origin wellFormed live with
  | kept old_live => exact .inl ⟨_, old_live, rfl, known⟩
  | linked old_live =>
      exact .inl ⟨_, old_live, by simp, by simpa using known⟩
  | asked | askedAgain => simp [Request.waiting] at known
  | placed unused decoded =>
      obtain rfl := Option.some.inj known
      exact .inr ⟨_, _, rfl, decoded, rfl⟩

end cases

end Scheduler

end TrieSync
