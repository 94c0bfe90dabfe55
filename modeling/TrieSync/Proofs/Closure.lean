import TrieSync.Proofs.Session
import TrieSync.Proofs.Write

/-!
Whatever the bytes that a scheduler works with refer to is stored, staged or waited for. A node is
staged when it waits for nothing more, so that nothing below it is missing then.
-/

namespace TrieSync

/-- A task is about to make a request, or none in particular, wait for a node. -/
def Task.Brings (waiter : Option RequestId) (occurrence : Occurrence) : Task → Prop
  | node parent other => other = occurrence ∧ waiter.toList ⊆ parent.toList
  | code _ _ _ => False
  | place other _ parents => other = occurrence ∧ waiter.toList ⊆ parents
  | release _ => False

namespace Scheduler

variable {H : Hash} {store : Store} {task : Task} {tasks new : List Task}
  {scheduler after : Scheduler} {id : RequestId} {waiter : Option RequestId}
  {occurrence : Occurrence} {code : Digest}

/-- A node is stored, or some node is staged at its place. -/
def HasNode (store : Store) (scheduler : Scheduler) (occurrence : Occurrence) : Prop :=
  store.hasNode occurrence = true ∨ (scheduler.staging.digestAt? occurrence.path).isSome

def HasCode (store : Store) (scheduler : Scheduler) (code : Digest) : Prop :=
  store.hasCode code = true ∨ scheduler.staging.hasCode code = true

/-- A request, or none in particular, waits for another one at a place. -/
def WaitsFor (scheduler : Scheduler) (waiter : Option RequestId) (occurrence : Occurrence) : Prop :=
  ∃ other request parents, scheduler.requests.live? other = some request ∧
    (occurrence, parents) ∈ request.places ∧ waiter.toList ⊆ parents

def WaitsForCode (scheduler : Scheduler) (id : RequestId) (code : Digest) : Prop :=
  ∃ request, scheduler.codes.requests[code]? = some request ∧ id ∈ request.parents

/-- A request waits for a node, or a task will make it wait. -/
def Expects (tasks : List Task) (scheduler : Scheduler) (waiter : Option RequestId)
    (occurrence : Occurrence) : Prop :=
  scheduler.WaitsFor waiter occurrence ∨ ∃ task ∈ tasks, task.Brings waiter occurrence

def ExpectsCode (tasks : List Task) (scheduler : Scheduler) (id : RequestId) (code : Digest) :
    Prop :=
  scheduler.WaitsForCode id code ∨ ∃ path, .code (some id) path code ∈ tasks

/-- What is staged is complete, and what is to be staged waits for all that it misses. -/
structure Sound (H : Hash) (store : Store) (tasks : List Task) (scheduler : Scheduler) : Prop where
  staged : ∀ {path : Path} {digest bytes}, scheduler.staging.nodes[path]? = some (digest, bytes) →
    Backed H scheduler.schema (HasNode store scheduler) (HasCode store scheduler) ⟨path, digest⟩
      bytes
  fetched : ∀ {id request bytes}, scheduler.requests.live? id = some request →
    request.bytes = some bytes →
      Backed H scheduler.schema
        (fun node => HasNode store scheduler node ∨ Expects tasks scheduler (some id) node)
        (fun code => HasCode store scheduler code ∨ ExpectsCode tasks scheduler id code)
        request.occurrence bytes

/-- The same, apart from nodes that are spared: they may be missing below what is staged. -/
structure SoundBut (H : Hash) (store : Store) (spared : Occurrence → Prop) (tasks : List Task)
    (scheduler : Scheduler) : Prop where
  staged : ∀ {path : Path} {digest bytes}, scheduler.staging.nodes[path]? = some (digest, bytes) →
    Backed H scheduler.schema (fun node => HasNode store scheduler node ∨ spared node)
      (HasCode store scheduler) ⟨path, digest⟩ bytes
  fetched : ∀ {id request bytes}, scheduler.requests.live? id = some request →
    request.bytes = some bytes →
      Backed H scheduler.schema
        (fun node => (HasNode store scheduler node ∨ spared node) ∨
          Expects tasks scheduler (some id) node)
        (fun code => HasCode store scheduler code ∨ ExpectsCode tasks scheduler id code)
        request.occurrence bytes

theorem Sound.but (h : Sound H store tasks scheduler) (spared : Occurrence → Prop) :
    SoundBut H store spared tasks scheduler where
  staged staged := (h.staged staged).mono (fun _ has => .inr (.inl has)) fun _ => id
  fetched live known := (h.fetched live known).mono (fun _ has => .inr (has.imp_left .inl))
    fun _ => id

theorem SoundBut.sound (h : SoundBut H store (fun _ => False) tasks scheduler) :
    Sound H store tasks scheduler where
  staged staged := (h.staged staged).mono (fun _ has => .inr (has.resolve_right id)) fun _ => id
  fetched live known := (h.fetched live known).mono
    (fun _ has => .inr (has.imp_left fun has => has.resolve_right id)) fun _ => id

section waiting

theorem WaitsFor.awaited (h : scheduler.WaitsFor waiter occurrence) (parent : Option RequestId) :
    (scheduler.awaited parent).WaitsFor waiter occurrence := by
  obtain ⟨other, request, parents, live, place, waits⟩ := h
  obtain ⟨pending, awaited_live⟩ := exists_awaited_of_live parent live
  exact ⟨other, _, parents, awaited_live, place, waits⟩

theorem waitsFor_linked {other : RequestId} {request : Request} {parent : Option RequestId}
    (live : scheduler.requests.live? other = some request)
    (digest_eq : request.occurrence.digest = occurrence.digest)
    (waits : waiter.toList ⊆ parent.toList) :
    Scheduler.WaitsFor
      { scheduler with requests := scheduler.requests.linked other request occurrence.path parent }
      waiter occurrence := by
  obtain ⟨more, place, subset⟩ := Request.exists_mem_places_link request occurrence.path parent
  rw [digest_eq] at place
  exact ⟨other, _, more, RequestTable.live?_linked_self live _ _, place,
    List.Subset.trans waits subset⟩

theorem waitsFor_ask (wellFormed : scheduler.requests.WellFormed) (occurrence : Occurrence)
    {parents : List RequestId} (waits : waiter.toList ⊆ parents) :
    (scheduler.ask occurrence parents).WaitsFor waiter occurrence :=
  ⟨_, _, parents, live?_ask_self wellFormed occurrence parents,
    List.mem_cons_self, waits⟩

theorem waitsFor_insertFetched (wellFormed : scheduler.requests.WellFormed)
    {bytes : Bytes} {parents : List RequestId} {fresh : RequestId} {requests : RequestTable}
    (inserted : scheduler.requests.insertFetched occurrence bytes parents = (fresh, requests))
    (waits : waiter.toList ⊆ parents) :
    Scheduler.WaitsFor { scheduler with requests } waiter occurrence :=
  ⟨fresh, _, parents, live?_insertFetched_self wellFormed inserted,
    List.mem_cons_self, waits⟩

theorem WaitsFor.mem_waiters (h : scheduler.WaitsFor (some id) occurrence) :
    id ∈ scheduler.waiters := by
  obtain ⟨other, request, parents, live, place, waits⟩ := h
  refine List.mem_append_left _ (List.mem_flatMap.mpr ⟨request, ?_, ?_⟩)
  · exact RequestTable.mem_requests_iff.mpr ⟨other, live⟩
  · exact List.mem_flatMap.mpr ⟨_, place, waits (by simp)⟩

theorem WaitsForCode.mem_waiters (h : scheduler.WaitsForCode id code) :
    id ∈ scheduler.waiters := by
  obtain ⟨request, found, waits⟩ := h
  refine List.mem_append_right _ (List.mem_flatMap.mpr ⟨(code, request), ?_, waits⟩)
  exact Std.TreeMap.mem_toList_iff_getElem?_eq_some.mpr found

theorem WaitsForCode.insert (h : scheduler.WaitsForCode id code) (other : Digest) (path : Path)
    (parent : Option RequestId) :
    Scheduler.WaitsForCode
      { scheduler with codes := scheduler.codes.insert other path parent } id code := by
  obtain ⟨request, found, waits⟩ := h
  unfold CodeTable.insert WaitsForCode
  split
  · rename_i current current_found
    simp only [Entries.getElem?_insert]
    split
    · rename_i same
      subst same
      obtain rfl := Option.some.inj (current_found.symm.trans found)
      exact ⟨_, rfl, List.mem_append_left _ waits⟩
    · exact ⟨request, found, waits⟩
  · rename_i absent
    simp only [Entries.getElem?_insert]
    split
    · rename_i same
      subst same
      simp [absent] at found
    · exact ⟨request, found, waits⟩

theorem waitsForCode_insert (scheduler : Scheduler) (path : Path) {parent : Option RequestId}
    (waits : parent = some id) :
    Scheduler.WaitsForCode
      { scheduler with codes := scheduler.codes.insert code path parent } id code := by
  unfold CodeTable.insert WaitsForCode
  split <;> simp [waits]

theorem WaitsForCode.remove (h : scheduler.WaitsForCode id code) {other : Digest}
    (other_ne : other ≠ code) (staging : Staging) :
    Scheduler.WaitsForCode
      { scheduler with codes := (scheduler.codes.remove other).2, staging } id code := by
  obtain ⟨request, found, waits⟩ := h
  unfold CodeTable.remove WaitsForCode
  dsimp only
  split
  · exact ⟨request, found, waits⟩
  · simp only [Entries.getElem?_erase, other_ne, if_false]
    exact ⟨request, found, waits⟩

end waiting

section step

theorem HasNode.step (h : HasNode store scheduler occurrence)
    (step : Step H store scheduler task new after) : HasNode store after occurrence := by
  refine h.imp_right ?_
  intro staged
  rcases step.staging_cases with staging_eq | ⟨-, request, bytes, -, -, -, -, staging_eq⟩
  · rwa [staging_eq]
  · rw [staging_eq, Staging.digestAt?_insertNode]
    split
    · rfl
    · exact staged

theorem HasCode.step (h : HasCode store scheduler code)
    (step : Step H store scheduler task new after) : HasCode store after code := by
  refine h.imp_right ?_
  intro staged
  rwa [Staging.hasCode, step.staged_codes]

private theorem hasNode_complete (store : Store) (scheduler : Scheduler) (id : RequestId)
    (request : Request) (bytes : Bytes) :
    HasNode store (scheduler.complete id request bytes) request.occurrence := by
  refine .inr ?_
  simp [Scheduler.complete]

private theorem WaitsFor.step (coherent : Coherent (task :: tasks) scheduler)
    (h : scheduler.WaitsFor waiter occurrence) (step : Step H store scheduler task new after) :
    HasNode store after occurrence ∨ after.WaitsFor waiter occurrence := by
  have wellFormed := coherent.counted.wellFormed
  obtain ⟨id, request, parents, live, place, waits⟩ := h
  rcases step.request_kept wellFormed live with ⟨next, next_live, kept⟩ | ⟨rfl, last, known⟩
  · obtain ⟨more, next_place, subset⟩ := kept.places place
    exact .inr ⟨id, next, more, next_live, next_place, List.Subset.trans waits subset⟩
  · obtain ⟨bytes, bytes_eq, rfl⟩ := step.completes live last known
    obtain rfl : occurrence = request.occurrence := by
      simp only [Request.places, wellFormed.aliases_eq_nil live bytes_eq, List.map_nil,
        List.mem_singleton, Prod.mk.injEq] at place
      exact place.1
    exact .inl (hasNode_complete store _ id { request with pending := 0 } bytes)

/-- What a task is about to wait for is empty, staged or stored, or waited for next. -/
private theorem Task.Brings.step (coherent : Coherent (task :: tasks) scheduler)
    (h : task.Brings waiter occurrence) (step : Step H store scheduler task new after) :
    occurrence.digest = emptyRoot H ∨ HasNode store after occurrence ∨
      Expects new after waiter occurrence := by
  have wellFormed := coherent.counted.wellFormed
  cases step with
  | skipEmpty digest_eq => exact .inl (h.1 ▸ digest_eq)
  | skipStaged staged => exact .inr (.inl (.inr (by simp [← h.1, staged])))
  | skipStored unscheduled notStaged notLive stored =>
      exact .inr (.inl (.inl (h.1 ▸ stored)))
  | joinHere digest_ne responsible live digest_eq =>
      obtain ⟨rfl, waits⟩ := h
      exact .inr (.inr (.inl (waitsFor_linked live digest_eq waits)))
  | joinElsewhere unscheduled notStaged unknown live bytes_eq digest_eq =>
      obtain ⟨rfl, waits⟩ := h
      exact .inr (.inr (.inl (waitsFor_linked live digest_eq waits)))
  | copy =>
      obtain ⟨rfl, waits⟩ := h
      exact .inr (.inr (.inr ⟨_, List.mem_singleton_self _, rfl, waits⟩))
  | ask =>
      obtain ⟨rfl, waits⟩ := h
      exact .inr (.inr (.inl (waitsFor_ask (wellFormed_awaited wellFormed _) _ waits)))
  | askAgain =>
      obtain ⟨rfl, waits⟩ := h
      exact .inr (.inr (.inl (waitsFor_ask wellFormed _ waits)))
  | resolve decoded inserted =>
      obtain ⟨rfl, waits⟩ := h
      exact .inr (.inr (.inl ((waitsFor_insertFetched wellFormed inserted waits).awaited _)))
  | skipCode | askCode | count | complete => exact h.elim

theorem Expects.step (coherent : Coherent (task :: tasks) scheduler)
    (h : Expects (task :: tasks) scheduler waiter occurrence)
    (step : Step H store scheduler task new after) :
    occurrence.digest = emptyRoot H ∨ HasNode store after occurrence ∨
      Expects (new ++ tasks) after waiter occurrence := by
  rcases h with waits | ⟨other, member, brings⟩
  · exact .inr ((waits.step coherent step).imp_right .inl)
  · rcases List.mem_cons.mp member with rfl | member
    · refine (Task.Brings.step coherent brings step).imp_right (.imp_right ?_)
      refine Or.imp_right ?_
      rintro ⟨next, next_member, next_brings⟩
      exact ⟨next, List.mem_append_left _ next_member, next_brings⟩
    · exact .inr (.inr (.inr ⟨other, List.mem_append_right _ member, brings⟩))

theorem ExpectsCode.step (h : ExpectsCode (task :: tasks) scheduler id code)
    (step : Step H store scheduler task new after) :
    HasCode store after code ∨ ExpectsCode (new ++ tasks) after id code := by
  rcases h with waits | ⟨path, member⟩
  · rcases step.codes_cases with codes_eq | ⟨parent, path, digest, -, -, -, codes_eq⟩
    · exact .inr (.inl (by rwa [WaitsForCode, codes_eq]))
    · refine .inr (.inl ?_)
      rw [WaitsForCode, codes_eq]
      exact waits.insert digest path parent
  · rcases List.mem_cons.mp member with rfl | member
    · cases step with
      | skipCode present => exact .inl present.symm
      | askCode => exact .inr (.inl (waitsForCode_insert _ _ rfl))
    · exact .inr (.inr ⟨path, List.mem_append_right _ member⟩)

theorem not_mentioned {request : Request}
    (coherent : Coherent (.release id :: tasks) scheduler)
    (live : scheduler.requests.live? id = some request) (pending_eq : request.pending = 1) :
    id ∉ tasks.flatMap Task.held ∧ id ∉ scheduler.waiters := by
  have count_eq := coherent.counted.pending_eq live
  simp only [List.flatMap_cons, Task.held, List.cons_append, List.nil_append,
    List.count_cons_self, List.count_append, pending_eq] at count_eq
  constructor
  · exact List.count_eq_zero.mp (by omega)
  · exact List.count_eq_zero.mp (by omega)

private theorem mem_held_of_parent (heldOpen : Task.HeldOpen tasks) (member : task ∈ tasks)
    (parent : id ∈ task.parent?) : id ∈ tasks.flatMap Task.held :=
  List.mem_flatMap.mpr ⟨_, heldOpen.release_mem member parent, List.mem_singleton_self id⟩

theorem not_expects {request : Request}
    (coherent : Coherent (.release id :: tasks) scheduler)
    (live : scheduler.requests.live? id = some request) (pending_eq : request.pending = 1) :
    ¬ Expects (.release id :: tasks) scheduler (some id) occurrence := by
  obtain ⟨not_held, not_waiting⟩ := not_mentioned coherent live pending_eq
  rintro (waits | ⟨other, member, brings⟩)
  · exact not_waiting waits.mem_waiters
  · rcases List.mem_cons.mp member with rfl | member
    · exact brings
    · cases other with
      | node parent _ =>
          have parent_eq : id ∈ parent := Option.mem_toList.mp (brings.2 (by simp))
          exact not_held (mem_held_of_parent coherent.heldOpen.2 member parent_eq)
      | place _ _ parents =>
          exact not_held (List.mem_flatMap.mpr ⟨_, member, brings.2 (by simp)⟩)
      | code | release => exact brings

theorem not_expectsCode {request : Request}
    (coherent : Coherent (.release id :: tasks) scheduler)
    (live : scheduler.requests.live? id = some request) (pending_eq : request.pending = 1) :
    ¬ ExpectsCode (.release id :: tasks) scheduler id code := by
  obtain ⟨not_held, not_waiting⟩ := not_mentioned coherent live pending_eq
  rintro (waits | ⟨path, member⟩)
  · exact not_waiting waits.mem_waiters
  · rcases List.mem_cons.mp member with same | member
    · simp at same
    · exact not_held (mem_held_of_parent coherent.heldOpen.2 member (Option.mem_some_self id))

private theorem backed_tasks {schema : Schema} {spared : Occurrence → Prop} {bytes : Bytes}
    {references : References} (digest_eq : H bytes = occurrence.digest)
    (decoded : schema.references H occurrence.path bytes = .ok references) :
    Backed H schema
      (fun node => (HasNode store scheduler node ∨ spared node) ∨
        Expects (references.tasks id occurrence.path ++ tasks) scheduler (some id) node)
      (fun code => HasCode store scheduler code ∨
        ExpectsCode (references.tasks id occurrence.path ++ tasks) scheduler id code)
      occurrence bytes := by
  refine ⟨digest_eq, references, decoded, ?_, ?_⟩
  · intro node member
    refine .inr (.inr (.inr ⟨.node (some id) node, ?_, rfl, List.Subset.refl _⟩))
    simp [References.tasks, member]
  · intro code member
    refine .inr (.inr ⟨occurrence.path, ?_⟩)
    simp [References.tasks, member]

namespace SoundBut

variable {spared : Occurrence → Prop}

/-- A request that waits for nothing but itself misses nothing that it refers to. -/
theorem backed_of_pending {request : Request} {bytes : Bytes}
    (h : SoundBut H store spared (.release id :: tasks) scheduler)
    (coherent : Coherent (.release id :: tasks) scheduler)
    (live : scheduler.requests.live? id = some request) (pending_eq : request.pending = 1)
    (known_eq : request.bytes = some bytes) :
    Backed H scheduler.schema (fun node => HasNode store scheduler node ∨ spared node)
      (HasCode store scheduler) request.occurrence bytes := by
  refine (h.fetched live known_eq).mono ?_ ?_
  · rintro node (has | expects)
    · exact .inr has
    · exact absurd expects (not_expects coherent live pending_eq)
  · rintro code (has | expects)
    · exact has
    · exact absurd expects (not_expectsCode coherent live pending_eq)

theorem step {schema : Schema} {known : Digest → Bytes → Prop}
    (h : SoundBut H store spared (task :: tasks) scheduler)
    (coherent : Coherent (task :: tasks) scheduler)
    (holds : Holds schema known (task :: tasks) scheduler)
    (hash_eq : ∀ digest bytes, known digest bytes → H bytes = digest)
    (step : Step H store scheduler task new after) :
    SoundBut H store spared (new ++ tasks) after where
  staged {path digest bytes} staged := by
    rw [step.schema_eq]
    have kept {occurrence : Occurrence} {bytes : Bytes}
        (backed : Backed H scheduler.schema (fun node => HasNode store scheduler node ∨ spared node)
          (HasCode store scheduler) occurrence bytes) :
        Backed H scheduler.schema (fun node => HasNode store after node ∨ spared node)
          (HasCode store after) occurrence bytes :=
      backed.mono (fun _ has => .inr (has.imp_left fun has => has.step step))
        fun _ has => has.step step
    rcases step.staged_cases staged with
      staged | ⟨id, request, rfl, live, pending_eq, known_eq, occurrence_eq⟩
    · exact kept (h.staged staged)
    · exact occurrence_eq ▸ kept (h.backed_of_pending coherent live pending_eq known_eq)
  fetched {id request bytes} live known_eq := by
    rw [step.schema_eq]
    rcases step.fetched_cases coherent.counted.wellFormed live known_eq with
      ⟨old, old_live, occurrence_eq, old_eq⟩ | ⟨parents, references, rfl, decoded, rfl⟩
    · rw [← occurrence_eq]
      refine (h.fetched old_live old_eq).mono ?_ ?_
      · rintro node (has | expects)
        · exact .inr (.inl (has.imp_left fun has => has.step step))
        · exact (expects.step coherent step).imp_right (Or.imp_left .inl)
      · rintro code (has | expects)
        · exact .inl (has.step step)
        · exact expects.step step
    · exact backed_tasks (hash_eq _ _ (holds.placed List.mem_cons_self)) decoded

end SoundBut

theorem Sound.backed_of_pending {request : Request} {bytes : Bytes}
    (h : Sound H store (.release id :: tasks) scheduler)
    (coherent : Coherent (.release id :: tasks) scheduler)
    (live : scheduler.requests.live? id = some request) (pending_eq : request.pending = 1)
    (known_eq : request.bytes = some bytes) :
    Backed H scheduler.schema (HasNode store scheduler) (HasCode store scheduler)
      request.occurrence bytes :=
  ((h.but fun _ => False).backed_of_pending coherent live pending_eq known_eq).mono
    (fun _ has => .inr (has.resolve_right not_false)) fun _ has => has

theorem Sound.step {schema : Schema} {known : Digest → Bytes → Prop}
    (h : Sound H store (task :: tasks) scheduler) (coherent : Coherent (task :: tasks) scheduler)
    (holds : Holds schema known (task :: tasks) scheduler)
    (hash_eq : ∀ digest bytes, known digest bytes → H bytes = digest)
    (step : Step H store scheduler task new after) : Sound H store (new ++ tasks) after :=
  ((h.but _).step coherent holds hash_eq step).sound

end step

section turn

variable {call : Call} {start : Scheduler}

theorem HasNode.turn (h : HasNode store scheduler occurrence)
    (turn : Turn H scheduler call tasks start) : HasNode store start occurrence := by
  cases turn with
  | addSubTrie | addCode | missing | processCode => exact h
  | processNode => simpa [HasNode, received] using h

theorem HasCode.turn (h : HasCode store scheduler code)
    (turn : Turn H scheduler call tasks start) : HasCode store start code := by
  cases turn with
  | addSubTrie | addCode | missing => exact h
  | processNode => simpa [HasCode, received] using h
  | processCode =>
      refine h.imp_right ?_
      intro staged
      exact Staging.hasCode_insertCode_iff.mpr (.inr staged)

theorem HasCode.works (h : HasCode store scheduler code) (coherent : Coherent tasks scheduler)
    (works : Works H store tasks scheduler after) : HasCode store after code :=
  (works.keeps (fun _ scheduler => HasCode store scheduler code) (fun _ has step => has.step step)
    coherent h).2

private theorem WaitsFor.received {other : RequestId} {request : Request} {bytes : Bytes}
    (h : scheduler.WaitsFor waiter occurrence)
    (live : scheduler.requests.live? other = some request) :
    (scheduler.received other request bytes).WaitsFor waiter occurrence ∨
      ∃ task ∈ request.copies bytes, task.Brings waiter occurrence := by
  obtain ⟨current, old, parents, old_live, place, waits⟩ := h
  by_cases same : other = current
  · subst same
    obtain rfl := Option.some.inj (live.symm.trans old_live)
    rcases List.mem_cons.mp place with own | alias_place
    · obtain ⟨rfl, rfl⟩ := Prod.mk.inj own
      exact .inl ⟨other, _, request.parents, (live?_received live bytes other).trans (if_pos rfl),
        List.mem_cons_self, waits⟩
    · obtain ⟨copy, member, place_eq⟩ := List.mem_map.mp alias_place
      obtain ⟨rfl, rfl⟩ := Prod.mk.inj place_eq
      exact .inr ⟨_, List.mem_map_of_mem member, rfl, waits⟩
  · refine .inl ⟨current, old, parents, ?_, place, waits⟩
    rw [live?_received live, if_neg same, old_live]

theorem Expects.turn (h : Expects [] scheduler waiter occurrence)
    (turn : Turn H scheduler call tasks start) : Expects tasks start waiter occurrence := by
  have waits : scheduler.WaitsFor waiter occurrence := by simpa [Expects] using h
  cases turn with
  | addSubTrie | addCode | missing | processCode => exact .inl waits
  | @processNode path bytes id request references responsible inFlight live =>
      rcases waits.received live with waits | ⟨task, member, brings⟩
      · exact .inl (waits.awaited _)
      · exact .inr ⟨task, List.mem_append_right _ member, brings⟩

theorem ExpectsCode.turn (h : ExpectsCode [] scheduler id code)
    (turn : Turn H scheduler call tasks start) :
    HasCode store start code ∨ ExpectsCode tasks start id code := by
  have waits : scheduler.WaitsForCode id code := by simpa [ExpectsCode] using h
  cases turn with
  | addSubTrie | addCode | missing => exact .inr (.inl waits)
  | processNode => exact .inr (.inl (by simpa [WaitsForCode, received] using waits))
  | @processCode digest bytes inFlight digest_eq =>
      by_cases same : digest = code
      · subst same
        exact .inl (.inr (Staging.hasCode_insertCode_iff.mpr (.inl rfl)))
      · exact .inr (.inl (waits.remove same _))

theorem Turn.fetched_cases (turn : Turn H scheduler call tasks start) {request : Request}
    {bytes : Bytes} (live : start.requests.live? id = some request)
    (known : request.bytes = some bytes) :
    (∃ old, scheduler.requests.live? id = some old ∧ old.occurrence = request.occurrence ∧
      old.bytes = some bytes) ∨
    ∃ references rest, H bytes = request.occurrence.digest ∧
      scheduler.schema.references H request.occurrence.path bytes = .ok references ∧
      tasks = references.tasks id request.occurrence.path ++ rest := by
  cases turn with
  | addSubTrie | addCode | missing | processCode => exact .inl ⟨request, live, rfl, known⟩
  | @processNode path bytes' other old references responsible inFlight old_live path_eq digest_eq
      decoded =>
      rcases received_cases old_live live with ⟨rfl, rfl⟩ | ⟨-, other_live⟩
      · obtain rfl := Option.some.inj known
        exact .inr ⟨references, _, digest_eq, path_eq ▸ decoded, by rw [path_eq]⟩
      · exact .inl ⟨_, other_live, rfl, known⟩

namespace SoundBut

variable {spared : Occurrence → Prop}

theorem turn (h : SoundBut H store spared [] scheduler)
    (turn : Turn H scheduler call tasks start) : SoundBut H store spared tasks start where
  staged staged := by
    rw [turn.schema_eq]
    refine (h.staged (turn.nodes_eq ▸ staged)).mono ?_ fun _ has => has.turn turn
    exact fun _ has => .inr (has.imp_left fun has => has.turn turn)
  fetched live known := by
    rw [turn.schema_eq]
    rcases turn.fetched_cases live known with
      ⟨old, old_live, occurrence_eq, old_eq⟩ | ⟨references, rest, digest_eq, decoded, rfl⟩
    · rw [← occurrence_eq]
      refine (h.fetched old_live old_eq).mono ?_ ?_
      · rintro node (has | expects)
        · exact .inr (.inl (has.imp_left fun has => has.turn turn))
        · exact .inr (.inr (expects.turn turn))
      · rintro code (has | expects)
        · exact .inl (has.turn turn)
        · exact expects.turn turn
    · exact backed_tasks digest_eq decoded

theorem works {schema : Schema} {known : Digest → Bytes → Prop}
    (h : SoundBut H store spared tasks scheduler) (coherent : Coherent tasks scheduler)
    (holds : Holds schema known tasks scheduler)
    (hash_eq : ∀ digest bytes, known digest bytes → H bytes = digest)
    (works : Works H store tasks scheduler after) : SoundBut H store spared [] after := by
  refine (works.keeps (fun tasks scheduler =>
    Holds schema known tasks scheduler ∧ SoundBut H store spared tasks scheduler) ?_ coherent
      ⟨holds, h⟩).2.2
  rintro _ _ _ _ _ coherent ⟨holds, sound⟩ step
  exact ⟨holds.step coherent step, sound.step coherent holds hash_eq step⟩

end SoundBut

theorem Sound.turn (h : Sound H store [] scheduler) (turn : Turn H scheduler call tasks start) :
    Sound H store tasks start :=
  ((h.but _).turn turn).sound

theorem Sound.works {schema : Schema} {known : Digest → Bytes → Prop}
    (h : Sound H store tasks scheduler) (coherent : Coherent tasks scheduler)
    (holds : Holds schema known tasks scheduler)
    (hash_eq : ∀ digest bytes, known digest bytes → H bytes = digest)
    (works : Works H store tasks scheduler after) : Sound H store [] after :=
  ((h.but _).works coherent holds hash_eq works).sound

end turn

end Scheduler

end TrieSync
