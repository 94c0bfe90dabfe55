import TrieSync.Proofs.Outstanding

namespace TrieSync

namespace Scheduler

variable {H : Hash} {store : Store} {task : Task} {tasks new : List Task}
  {scheduler after start : Scheduler} {call : Call} {id : RequestId} {request : Request}
  {digest : Digest}

/-- A request for a node is live, whether or not its bytes are known, or the node is staged. -/
def Tracks (scheduler : Scheduler) (digest : Digest) : Prop :=
  (∃ id request, scheduler.requests.live? id = some request ∧
    request.occurrence.digest = digest) ∨
  (scheduler.staging.node? digest).isSome = true

/-- A live request asks for a node at a place. -/
def Seeks (scheduler : Scheduler) (occurrence : Occurrence) : Prop :=
  ∃ id request, scheduler.requests.live? id = some request ∧ request.bytes = none ∧
    request.occurrence = occurrence

theorem InFlight.seeks {occurrence : Occurrence} (h : scheduler.InFlight occurrence)
    (wellFormed : scheduler.requests.WellFormed) : scheduler.Seeks occurrence := by
  obtain ⟨id, request, inFlight, live, same⟩ := h
  exact ⟨id, request, live, wellFormed.unknown_of_inFlight inFlight live, same⟩

theorem Addressed.eq_of_seeks {past : List Occurrence} {upper lower : Occurrence}
    (addressed : Addressed H [] scheduler past) (upper_sought : scheduler.Seeks upper)
    (lower_sought : scheduler.Seeks lower) (covers : upper.path.Covers lower.path) :
    lower = upper := by
  have mem_missingNodes {occurrence : Occurrence} (sought : scheduler.Seeks occurrence) :
      occurrence ∈ missingNodes H [] scheduler := by
    obtain ⟨id, request, live, unknown, rfl⟩ := sought
    exact Addressed.mem_missingNodes live unknown request.occurrence_mem_occurrences
  exact addressed.layout.apart (mem_missingNodes upper_sought)
    (List.mem_append_left _ (mem_missingNodes lower_sought)) covers

/-- Some bytes of a node are known. -/
def Known (scheduler : Scheduler) (digest : Digest) : Prop :=
  ∃ bytes, scheduler.Knows digest bytes

section step

theorem Step.live_or_staged (wellFormed : scheduler.requests.WellFormed)
    (step : Step H store scheduler task new after)
    (live : scheduler.requests.live? id = some request) :
    (∃ next, after.requests.live? id = some next ∧ next.occurrence = request.occurrence ∧
      next.bytes = request.bytes) ∨
    (after.staging.node? request.occurrence.digest).isSome = true := by
  rcases step.live_kept wellFormed live with kept | ⟨rfl, pending_eq, known⟩
  · exact .inl kept
  · obtain ⟨bytes, -, rfl⟩ := step.completes live pending_eq known
    exact .inr (by simp [Scheduler.complete])

theorem Step.seeks_cases {occurrence : Occurrence} (wellFormed : scheduler.requests.WellFormed)
    (step : Step H store scheduler task new after) (sought : after.Seeks occurrence) :
    scheduler.Seeks occurrence ∨ Demands H store scheduler task occurrence := by
  obtain ⟨id, request, live, unknown, rfl⟩ := sought
  rcases step.unanswered_cases wellFormed live unknown with
    ⟨old, old_live, occurrence_eq, old_unknown⟩ | ⟨demands, -, -⟩
  · exact .inl ⟨id, old, old_live, old_unknown, occurrence_eq⟩
  · exact .inr demands

theorem Step.isSome_node? (step : Step H store scheduler task new after)
    (staged : (scheduler.staging.node? digest).isSome = true) :
    (after.staging.node? digest).isSome = true := by
  rcases step.staging_cases with staging_eq | ⟨id, request, bytes, -, -, -, -, staging_eq⟩
  · rwa [staging_eq]
  · rw [staging_eq, Staging.node?_insertNode]
    split
    · rfl
    · exact staged

theorem Step.tracks (wellFormed : scheduler.requests.WellFormed)
    (step : Step H store scheduler task new after) (h : scheduler.Tracks digest) :
    after.Tracks digest := by
  rcases h with ⟨id, request, live, rfl⟩ | staged
  · rcases step.live_or_staged wellFormed live with ⟨next, next_live, occurrence_eq, -⟩ | staged
    · exact .inl ⟨id, next, next_live, by rw [occurrence_eq]⟩
    · exact .inr staged
  · exact .inr (step.isSome_node? staged)

theorem Step.known (wellFormed : scheduler.requests.WellFormed)
    (step : Step H store scheduler task new after) (h : scheduler.Known digest) :
    after.Known digest := by
  have of_staged {digest : Digest} (staged : (after.staging.node? digest).isSome = true) :
      after.Known digest := by
    obtain ⟨bytes, staged⟩ := Option.isSome_iff_exists.mp staged
    exact ⟨bytes, .inl staged⟩
  obtain ⟨bytes, staged | ⟨id, request, live, rfl, known⟩⟩ := h
  · exact of_staged (step.isSome_node? (by simp [staged]))
  · rcases step.live_or_staged wellFormed live with
      ⟨next, next_live, occurrence_eq, bytes_eq⟩ | staged
    · exact ⟨bytes, .inr ⟨id, next, next_live, by rw [occurrence_eq], bytes_eq.trans known⟩⟩
    · exact of_staged staged

end step

section turn

theorem Turn.exists_of_live (turn : Turn H scheduler call tasks start)
    (live : start.requests.live? id = some request) :
    ∃ old, scheduler.requests.live? id = some old ∧ old.occurrence = request.occurrence ∧
      (request.bytes = none → old.bytes = none) := by
  cases turn with
  | addSubTrie | addCode | missing | processCode =>
      exact ⟨request, live, rfl, fun unknown => unknown⟩
  | processNode responsible inFlight answered_live =>
      rcases received_cases answered_live live with ⟨rfl, rfl⟩ | ⟨-, old_live⟩
      · exact ⟨_, answered_live, rfl, by simp⟩
      · exact ⟨_, old_live, rfl, fun unknown => unknown⟩

theorem Turn.live_kept (turn : Turn H scheduler call tasks start)
    (live : scheduler.requests.live? id = some request) :
    ∃ next, start.requests.live? id = some next ∧ next.occurrence = request.occurrence := by
  cases turn with
  | addSubTrie | addCode | missing | processCode => exact ⟨request, live, rfl⟩
  | @processNode path bytes answered current references responsible inFlight current_live =>
      have received_live := live?_received current_live bytes id
      by_cases same : answered = id
      · subst same
        obtain rfl := Option.some.inj (live.symm.trans current_live)
        obtain ⟨pending, awaited_live⟩ :=
          exists_awaited_of_live (some answered) (received_live.trans (if_pos rfl))
        exact ⟨_, awaited_live, rfl⟩
      · obtain ⟨pending, awaited_live⟩ :=
          exists_awaited_of_live (some answered) ((received_live.trans (if_neg same)).trans live)
        exact ⟨_, awaited_live, rfl⟩

theorem Turn.node?_eq (turn : Turn H scheduler call tasks start) (digest : Digest) :
    start.staging.node? digest = scheduler.staging.node? digest := by
  cases turn with
  | addSubTrie | addCode | missing | processCode => rfl
  | processNode =>
      rw [staging_awaited]
      rfl

theorem Turn.tracks (turn : Turn H scheduler call tasks start) (h : scheduler.Tracks digest) :
    start.Tracks digest := by
  rcases h with ⟨id, request, live, rfl⟩ | staged
  · obtain ⟨next, next_live, occurrence_eq⟩ := turn.live_kept live
    exact .inl ⟨id, next, next_live, by rw [occurrence_eq]⟩
  · exact .inr (by rwa [turn.node?_eq])

/-- What a node that is delivered refers to is scheduled, and then the node is put at the other
places of its request. -/
theorem Turn.exists_tasks_eq {path : Path} {bytes : Bytes}
    (turn : Turn H scheduler (.processNode path bytes) tasks start) :
    ∃ (id : RequestId) (request : Request) (references : References),
      H bytes = request.occurrence.digest ∧
        scheduler.schema.references H path bytes = .ok references ∧
          tasks = references.tasks id path ++ request.copies bytes := by
  cases turn with
  | processNode responsible inFlight live path_eq digest_eq decoded =>
      exact ⟨_, _, _, digest_eq, decoded, rfl⟩

theorem Turn.exists_inFlight {path : Path} {bytes : Bytes}
    (turn : Turn H scheduler (.processNode path bytes) tasks start) :
    ∃ occurrence : Occurrence, occurrence.path = path ∧ H bytes = occurrence.digest ∧
      scheduler.InFlight occurrence := by
  cases turn with
  | @processNode _ _ id request _ responsible inFlight live path_eq digest_eq =>
      exact ⟨request.occurrence, path_eq, digest_eq, id, request, inFlight, live, rfl⟩

theorem Turn.seeks {occurrence : Occurrence} (turn : Turn H scheduler call tasks start)
    (h : start.Seeks occurrence) : scheduler.Seeks occurrence := by
  obtain ⟨id, request, live, unknown, rfl⟩ := h
  obtain ⟨old, old_live, occurrence_eq, old_unknown⟩ := turn.exists_of_live live
  exact ⟨id, old, old_live, old_unknown unknown, occurrence_eq⟩

end turn

/-- A request whose bytes are not known is the only one for its node, which is neither staged nor
stored. -/
structure Sole (store : Store) (tasks : List Task) (scheduler : Scheduler) : Prop where
  alone : ∀ {id other request current}, scheduler.requests.live? id = some request →
    request.bytes = none → scheduler.requests.live? other = some current →
      current.occurrence.digest = request.occurrence.digest → id = other
  notStaged : ∀ {id request}, scheduler.requests.live? id = some request →
    request.bytes = none → scheduler.staging.node? request.occurrence.digest = none
  notStored : ∀ {id request}, scheduler.requests.live? id = some request →
    request.bytes = none → store.hasNode request.occurrence = false
  placed : ∀ {occurrence bytes parents}, .place occurrence bytes parents ∈ tasks →
    scheduler.Known occurrence.digest
  staged : ∀ {path digest}, scheduler.staging.digestAt? path = some digest →
    (scheduler.staging.node? digest).isSome = true

/-- The nodes that are to be put at places can be decoded there. -/
def Decodes (H : Hash) (scheduler : Scheduler) (task : Task) : Prop :=
  ∀ {occurrence bytes parents}, task = .place occurrence bytes parents →
    ∃ references, scheduler.schema.references H occurrence.path bytes = .ok references

theorem Demands.fresh_of_decodes {occurrence : Occurrence}
    (h : Demands H store scheduler task occurrence) (decodes : Decodes H scheduler task) :
    ¬ scheduler.Tracks occurrence.digest ∧ store.hasNode occurrence = false ∧
      ∃ parent, task = .node parent occurrence := by
  cases h with
  | fresh digest_ne notStaged notLive notStored =>
      refine ⟨?_, notStored, _, rfl⟩
      rintro (⟨id, request, live, digest_eq⟩ | staged)
      · exact notLive live digest_eq
      · simp [notStaged] at staged
  | undecodable undecodable =>
      obtain ⟨references, decoded⟩ := decodes rfl
      simp [undecodable] at decoded

namespace Sole

theorem not_known (h : Sole store tasks scheduler)
    (live : scheduler.requests.live? id = some request) (unknown : request.bytes = none) :
    ¬ scheduler.Known request.occurrence.digest := by
  rintro ⟨bytes, staged | ⟨other, current, current_live, digest_eq, known⟩⟩
  · simp [h.notStaged live unknown] at staged
  · obtain rfl := h.alone live unknown current_live digest_eq
    obtain rfl := Option.some.inj (live.symm.trans current_live)
    simp [unknown] at known

theorem known_of_mem_bodies (h : Sole store tasks scheduler) {occurrence : Occurrence}
    {bytes : Bytes} (body : (occurrence, bytes) ∈ scheduler.bodies) :
    scheduler.Known occurrence.digest := by
  rcases mem_bodies_iff.mp body with ⟨id, request, live, known, rfl⟩ | found
  · exact ⟨bytes, .inr ⟨id, request, live, rfl, known⟩⟩
  · obtain ⟨known, staged⟩ := Option.isSome_iff_exists.mp
      (h.staged (Staging.digestAt?_eq_some_iff.mpr ⟨bytes, found⟩))
    exact ⟨known, .inl staged⟩

private theorem alone_step (h : Sole store (task :: tasks) scheduler)
    (wellFormed : scheduler.requests.WellFormed) (decodes : Decodes H scheduler task)
    (step : Step H store scheduler task new after) {other : RequestId} {current : Request}
    (live : after.requests.live? id = some request) (unknown : request.bytes = none)
    (current_live : after.requests.live? other = some current)
    (digest_eq : current.occurrence.digest = request.occurrence.digest) : id = other := by
  -- The other request was live before, or the step puts or demands its node.
  have current_cases : (∃ old, scheduler.requests.live? other = some old ∧
        old.occurrence = current.occurrence) ∨
      (∃ bytes parents, task = .place current.occurrence bytes parents) ∨
      Demands H store scheduler task current.occurrence ∧
        after.requests.queue = scheduler.requests.queue.insert current.occurrence.path other := by
    cases known : current.bytes with
    | none =>
        rcases step.unanswered_cases wellFormed current_live known with
          ⟨old, old_live, occurrence_eq, -⟩ | ⟨demands, -, queue_eq⟩
        · exact .inl ⟨old, old_live, occurrence_eq⟩
        · exact .inr (.inr ⟨demands, queue_eq⟩)
    | some bytes =>
        rcases step.fetched_cases wellFormed current_live known with
          ⟨old, old_live, occurrence_eq, -⟩ | ⟨parents, references, task_eq, -, -⟩
        · exact .inl ⟨old, old_live, occurrence_eq⟩
        · exact .inr (.inl ⟨bytes, parents, task_eq⟩)
  rcases step.unanswered_cases wellFormed live unknown with
    ⟨old, old_live, occurrence_eq, old_unknown⟩ | ⟨demands, -, queue_eq⟩
  · rw [← occurrence_eq] at digest_eq
    rcases current_cases with ⟨before, before_live, same⟩ | ⟨bytes, parents, rfl⟩ | ⟨demands, -⟩
    · exact h.alone old_live old_unknown before_live (by rw [same, digest_eq])
    · refine absurd ?_ (h.not_known old_live old_unknown)
      rw [← digest_eq]
      exact h.placed List.mem_cons_self
    · refine absurd ?_ (demands.fresh_of_decodes decodes).1
      exact .inl ⟨id, old, old_live, digest_eq.symm⟩
  · obtain ⟨not_tracks, -, parent, rfl⟩ := demands.fresh_of_decodes decodes
    rcases current_cases with
      ⟨before, before_live, same⟩ | ⟨bytes, parents, same⟩ | ⟨demands', queue_eq'⟩
    · exact absurd (.inl ⟨other, before, before_live, by rw [same, digest_eq]⟩) not_tracks
    · simp at same
    · obtain ⟨-, -, parent', same⟩ := demands'.fresh_of_decodes decodes
      rw [← (Task.node.inj same).2, queue_eq] at queue_eq'
      have entry_eq := congrArg (fun queue => queue[request.occurrence.path]?) queue_eq'
      simpa [Entries.getElem?_insert] using entry_eq

private theorem notStaged_step (h : Sole store (task :: tasks) scheduler)
    (wellFormed : scheduler.requests.WellFormed) (decodes : Decodes H scheduler task)
    (step : Step H store scheduler task new after)
    (live : after.requests.live? id = some request) (unknown : request.bytes = none) :
    after.staging.node? request.occurrence.digest = none := by
  rcases step.unanswered_cases wellFormed live unknown with
    ⟨old, old_live, occurrence_eq, old_unknown⟩ | ⟨demands, -, -⟩
  · -- The request that the step completes, and so stages, has another digest.
    rw [← occurrence_eq, Option.eq_none_iff_forall_ne_some]
    intro bytes staged
    rcases step.node?_cases staged with staged | ⟨other, current, -, current_live, known, digest_eq⟩
    · simp [h.notStaged old_live old_unknown] at staged
    · obtain rfl := h.alone old_live old_unknown current_live digest_eq
      obtain rfl := Option.some.inj (old_live.symm.trans current_live)
      simp [old_unknown] at known
  · obtain ⟨not_tracks, -, parent, rfl⟩ := demands.fresh_of_decodes decodes
    rw [Option.eq_none_iff_forall_ne_some]
    intro bytes staged
    rcases step.node?_cases staged with staged | ⟨_, _, same, -⟩
    · exact not_tracks (.inr (by simp [staged]))
    · simp at same

theorem step (h : Sole store (task :: tasks) scheduler)
    (wellFormed : scheduler.requests.WellFormed) (decodes : Decodes H scheduler task)
    (step : Step H store scheduler task new after) : Sole store (new ++ tasks) after where
  alone := h.alone_step wellFormed decodes step
  notStaged := h.notStaged_step wellFormed decodes step
  notStored {id request} live unknown := by
    rcases step.unanswered_cases wellFormed live unknown with
      ⟨old, old_live, occurrence_eq, old_unknown⟩ | ⟨demands, -, -⟩
    · exact occurrence_eq ▸ h.notStored old_live old_unknown
    · exact (demands.fresh_of_decodes decodes).2.1
  placed {occurrence bytes parents} member := by
    refine step.known wellFormed ?_
    rcases List.mem_append.mp member with member | member
    · cases step with
      | copy unscheduled known =>
          obtain ⟨rfl, rfl, -⟩ := Task.place.inj (List.mem_singleton.mp member)
          exact ⟨_, known⟩
      | resolve => simp [References.tasks] at member
      | complete => simp at member
      | _ => simp at member
    · exact h.placed (List.mem_cons_of_mem _ member)
  staged {path digest} staged := by
    rcases step.staging_cases with staging_eq | ⟨other, current, bytes, -, -, -, -, staging_eq⟩
    · rw [staging_eq] at staged ⊢
      exact h.staged staged
    · rw [staging_eq, Staging.digestAt?_insertNode] at staged
      split at staged
      · obtain rfl := Option.some.inj staged
        simp [staging_eq]
      · exact step.isSome_node? (h.staged staged)

theorem turn (h : Sole store [] scheduler) (turn : Turn H scheduler call tasks start) :
    Sole store tasks start where
  alone {id other request current} live unknown current_live digest_eq := by
    obtain ⟨old, old_live, occurrence_eq, old_unknown⟩ := turn.exists_of_live live
    obtain ⟨before, before_live, same, -⟩ := turn.exists_of_live current_live
    exact h.alone old_live (old_unknown unknown) before_live (by rw [same, occurrence_eq, digest_eq])
  notStaged {id request} live unknown := by
    obtain ⟨old, old_live, occurrence_eq, old_unknown⟩ := turn.exists_of_live live
    rw [turn.node?_eq, ← occurrence_eq]
    exact h.notStaged old_live (old_unknown unknown)
  notStored {id request} live unknown := by
    obtain ⟨old, old_live, occurrence_eq, old_unknown⟩ := turn.exists_of_live live
    exact occurrence_eq ▸ h.notStored old_live (old_unknown unknown)
  placed member := ⟨_, (Holds.of_turn turn).placed member⟩
  staged {path digest} staged := by
    rw [Staging.digestAt?, turn.nodes_eq] at staged
    rw [turn.node?_eq]
    exact h.staged staged

theorem commit {written : Store} (h : Sole store [] scheduler)
    (stored : ∀ {occurrence}, written.hasNode occurrence = true →
      store.hasNode occurrence = true ∨ scheduler.Known occurrence.digest) :
    Sole written [] { scheduler with staging := .empty } where
  alone := h.alone
  notStaged _ _ := by simp
  notStored {id request} live unknown := by
    by_contra held
    rw [Bool.not_eq_false] at held
    rcases stored held with held | known
    · simp [h.notStored live unknown] at held
    · exact h.not_known live unknown known
  placed member := by simp at member
  staged staged := by simp at staged

theorem ofRoot (store : Store) (schema : Schema) (root : Digest) :
    Sole store [.node none ⟨.root, root⟩] (idle schema) where
  alone live := by simp [idle, RequestTable.live?, RequestTable.empty] at live
  notStaged live := by simp [idle, RequestTable.live?, RequestTable.empty] at live
  notStored live := by simp [idle, RequestTable.live?, RequestTable.empty] at live
  placed member := by simp at member
  staged staged := by simp [idle] at staged

end Sole

section codes

/-- Code that is asked for is neither staged nor stored, and every request for it is queued or in
flight. -/
structure SoleCodes (store : Store) (scheduler : Scheduler) : Prop where
  wellFormed : scheduler.codes.WellFormed
  notStaged : ∀ {digest request}, scheduler.codes.requests[digest]? = some request →
    scheduler.staging.hasCode digest = false
  notStored : ∀ {digest request}, scheduler.codes.requests[digest]? = some request →
    store.hasCode digest = false

namespace SoleCodes

theorem step (h : SoleCodes store scheduler) (step : Step H store scheduler task new after) :
    SoleCodes store after := by
  have staged_eq : after.staging.hasCode = scheduler.staging.hasCode := by
    funext code
    rw [Staging.hasCode, step.staged_codes, Staging.hasCode]
  rcases step.codes_cases with
    codes_eq | ⟨parent, path, code, -, notStaged, notStored, codes_eq⟩
  · refine ⟨?_, ?_, ?_⟩
    · rw [codes_eq]
      exact h.wellFormed
    · rw [codes_eq, staged_eq]
      exact h.notStaged
    · rw [codes_eq]
      exact h.notStored
  · have inserted_cases {digest : Digest} {request : CodeRequest}
        (found : after.codes.requests[digest]? = some request) :
        digest = code ∨ ∃ old, scheduler.codes.requests[digest]? = some old := by
      rw [codes_eq] at found
      unfold CodeTable.insert at found
      split at found
      all_goals
        rw [Entries.getElem?_insert] at found
        split at found
        · exact .inl (by simp [*])
        · exact .inr ⟨_, found⟩
    refine ⟨?_, ?_, ?_⟩
    · rw [codes_eq]
      exact h.wellFormed.insert _ _ _
    · intro digest request found
      rw [staged_eq]
      rcases inserted_cases found with rfl | ⟨old, old_found⟩
      · exact notStaged
      · exact h.notStaged old_found
    · intro digest request found
      rcases inserted_cases found with rfl | ⟨old, old_found⟩
      · exact notStored
      · exact h.notStored old_found

theorem works (h : SoleCodes store scheduler) (coherent : Coherent tasks scheduler)
    (works : Works H store tasks scheduler after) : SoleCodes store after :=
  (works.keeps (fun _ scheduler => SoleCodes store scheduler) (fun _ h step => h.step step)
    coherent h).2

theorem turn (h : SoleCodes store scheduler) (turn : Turn H scheduler call tasks start) :
    SoleCodes store start := by
  cases turn with
  | addSubTrie | addCode => exact h
  | missing => exact ⟨h.wellFormed.handOut _, h.notStaged, h.notStored⟩
  | processNode =>
      refine ⟨?_, ?_, ?_⟩
      · rw [codes_awaited]
        exact h.wellFormed
      · rw [codes_awaited, staging_awaited]
        exact h.notStaged
      · rw [codes_awaited]
        exact h.notStored
  | @processCode code bytes =>
      refine ⟨h.wellFormed.remove code, ?_, ?_⟩
      all_goals
        intro digest request found
        rw [CodeTable.getElem?_requests_remove] at found
        split at found
      · simp at found
      · rename_i digest_ne
        rw [Bool.eq_false_iff, ne_eq, Staging.hasCode_insertCode_iff, not_or]
        exact ⟨digest_ne, by simp [h.notStaged found]⟩
      · simp at found
      · exact h.notStored found

theorem commit {written : Store} (h : SoleCodes store scheduler)
    (stored : ∀ {digest}, written.hasCode digest = true →
      store.hasCode digest = true ∨ scheduler.staging.hasCode digest = true) :
    SoleCodes written { scheduler with staging := .empty } where
  wellFormed := h.wellFormed
  notStaged _ := by simp
  notStored {digest request} found := by
    by_contra held
    rw [Bool.not_eq_false] at held
    rcases stored held with held | staged
    · simp [h.notStored found] at held
    · simp [h.notStaged found] at staged

theorem ofRoot (store : Store) (schema : Schema) : SoleCodes store (idle schema) where
  wellFormed := CodeTable.wellFormed_empty
  notStaged found := by simp [idle, CodeTable.empty] at found
  notStored found := by simp [idle, CodeTable.empty] at found

end SoleCodes

end codes

end Scheduler

end TrieSync
