import TrieSync.Proofs.Addressing
import TrieSync.Proofs.CodeTable
import TrieSync.Proofs.Transcript

namespace TrieSync

namespace Scheduler

variable {H : Hash} {store : Store} {task : Task} {tasks new : List Task}
  {scheduler after : Scheduler} {past : List Occurrence} {id : RequestId} {request : Request}

/-- A step asks for a node of which no copy is known, asked for or stored, or whose copy cannot be
decoded at the place. -/
inductive Demands (H : Hash) (store : Store) (scheduler : Scheduler) : Task → Occurrence → Prop
  | fresh {parent occurrence} (digest_ne : occurrence.digest ≠ emptyRoot H)
      (notStaged : scheduler.staging.node? occurrence.digest = none)
      (notLive : ∀ {id request}, scheduler.requests.live? id = some request →
        request.occurrence.digest ≠ occurrence.digest)
      (notStored : store.hasNode occurrence = false) :
      Demands H store scheduler (.node parent occurrence) occurrence
  | undecodable {occurrence bytes parents cause}
      (undecodable : scheduler.schema.references H occurrence.path bytes = .error cause) :
      Demands H store scheduler (.place occurrence bytes parents) occurrence

section cases

theorem Step.live_kept (wellFormed : scheduler.requests.WellFormed)
    (step : Step H store scheduler task new after)
    (live : scheduler.requests.live? id = some request) :
    (∃ next, after.requests.live? id = some next ∧ next.occurrence = request.occurrence ∧
      next.bytes = request.bytes) ∨
    task = .release id ∧ request.pending = 1 ∧ request.bytes.isSome = true := by
  refine (step.request_kept wellFormed live).imp_left ?_
  rintro ⟨next, next_live, kept⟩
  exact ⟨next, next_live, kept.occurrence_eq, kept.bytes_eq⟩

theorem Step.unanswered_cases (wellFormed : scheduler.requests.WellFormed)
    (step : Step H store scheduler task new after)
    (live : after.requests.live? id = some request) (unknown : request.bytes = none) :
    (∃ old, scheduler.requests.live? id = some old ∧ old.occurrence = request.occurrence ∧
      old.bytes = none) ∨
    Demands H store scheduler task request.occurrence ∧ new = [] ∧
      after.requests.queue = scheduler.requests.queue.insert request.occurrence.path id := by
  cases step.origin wellFormed live with
  | kept old_live => exact .inl ⟨_, old_live, rfl, unknown⟩
  | linked old_live => exact .inl ⟨_, old_live, by simp, by simpa using unknown⟩
  | asked _ unscheduled notStaged notLive notStored queue_eq =>
      exact .inr ⟨.fresh unscheduled.digest_ne notStaged notLive notStored, rfl, queue_eq⟩
  | askedAgain _ undecodable queue_eq => exact .inr ⟨.undecodable undecodable, rfl, queue_eq⟩
  | placed => simp [Request.waiting] at unknown

theorem Step.mem_inFlight_iff (wellFormed : scheduler.requests.WellFormed)
    (step : Step H store scheduler task new after) (id : RequestId) :
    id ∈ after.requests.inFlight ↔ id ∈ scheduler.requests.inFlight := by
  cases step with
  | skipEmpty | skipStaged | skipStored | skipCode | count => rfl
  | joinHere | joinElsewhere | copy | askCode => simp
  | ask | askAgain => simp [Scheduler.ask, RequestTable.inFlight_insert]
  | @resolve occurrence bytes parents references fresh requests decoded inserted =>
      simp [(RequestTable.queue_insertFetched inserted).2]
  | @complete other current bytes live pending_eq known =>
      have erased : id ∈ (scheduler.requests.inFlight).erase other ↔
          id ∈ scheduler.requests.inFlight := by
        rw [Entries.mem_erase_iff]
        refine ⟨And.right, fun inFlight => ⟨?_, inFlight⟩⟩
        rintro rfl
        simp [wellFormed.unknown_of_inFlight inFlight live] at known
      exact erased

theorem Addressed.queued_step (addressed : Addressed H (task :: tasks) scheduler past)
    (wellFormed : scheduler.requests.WellFormed) (step : Step H store scheduler task new after)
    {path : Path} (queued : scheduler.requests.queue[path]? = some id) :
    after.requests.queue[path]? = some id := by
  obtain ⟨request, live, rfl, unknown⟩ := wellFormed.queue_live queued
  -- A request that is queued at the place of another would take its entry.
  have of_ask {parent : Option RequestId} {occurrence : Occurrence} {parents : List RequestId}
      (opens : task.opens H = [occurrence]) :
      ((scheduler.awaited parent).ask occurrence parents).requests.queue[request.occurrence.path]? =
        some id := by
    rw [Scheduler.ask, RequestTable.queue_insert, Entries.getElem?_insert, if_neg ?_,
      queue_awaited, queued]
    exact fun same => addressed.notMem_paths wellFormed opens live (same ▸ List.mem_cons_self)
  cases step with
  | skipEmpty | skipStaged | skipStored | skipCode | count => exact queued
  | joinHere | joinElsewhere | copy | askCode => simpa using queued
  | ask unscheduled => exact of_ask (if_neg unscheduled.digest_ne)
  | @askAgain occurrence bytes parents => exact @of_ask none occurrence parents rfl
  | @resolve occurrence bytes parents references fresh requests decoded inserted =>
      simp [(RequestTable.queue_insertFetched inserted).1, queued]
  | @complete other current bytes current_live pending_eq known =>
      have erased :
          (scheduler.requests.queue.erase current.occurrence.path)[request.occurrence.path]? =
            some id := by
        rw [Entries.getElem?_erase, if_neg ?_, queued]
        intro same
        obtain rfl := addressed.id_eq_of_mem_paths wellFormed current_live live
          List.mem_cons_self (same ▸ List.mem_cons_self)
        obtain rfl := Option.some.inj (current_live.symm.trans live)
        simp [known] at unknown
      exact erased

end cases

/-- A node was asked for and is still to be answered. -/
def InFlight (scheduler : Scheduler) (occurrence : Occurrence) : Prop :=
  ∃ id request, id ∈ scheduler.requests.inFlight ∧
    scheduler.requests.live? id = some request ∧ request.occurrence = occurrence

section inFlight

variable {occurrence : Occurrence} {call : Call} {start : Scheduler}

theorem Step.inFlight_iff (wellFormed : scheduler.requests.WellFormed)
    (step : Step H store scheduler task new after) :
    after.InFlight occurrence ↔ scheduler.InFlight occurrence := by
  have kept {id : RequestId} (inFlight : id ∈ scheduler.requests.inFlight) :
      ∃ request next, scheduler.requests.live? id = some request ∧
        after.requests.live? id = some next ∧ next.occurrence = request.occurrence := by
    obtain ⟨request, live, unknown⟩ := wellFormed.inFlight_live inFlight
    rcases step.live_kept wellFormed live with ⟨next, next_live, occurrence_eq, -⟩ | ⟨-, -, known⟩
    · exact ⟨request, next, live, next_live, occurrence_eq⟩
    · simp [unknown] at known
  constructor
  · rintro ⟨id, request, inFlight, live, rfl⟩
    have inFlight := (step.mem_inFlight_iff wellFormed id).mp inFlight
    obtain ⟨old, next, old_live, next_live, occurrence_eq⟩ := kept inFlight
    obtain rfl := Option.some.inj (live.symm.trans next_live)
    exact ⟨id, old, inFlight, old_live, occurrence_eq.symm⟩
  · rintro ⟨id, request, inFlight, live, rfl⟩
    obtain ⟨old, next, old_live, next_live, occurrence_eq⟩ := kept inFlight
    obtain rfl := Option.some.inj (live.symm.trans old_live)
    exact ⟨id, next, (step.mem_inFlight_iff wellFormed id).mpr inFlight, next_live, occurrence_eq⟩

theorem Works.inFlight_iff (works : Works H store tasks scheduler after)
    (coherent : Coherent tasks scheduler) :
    after.InFlight occurrence ↔ scheduler.InFlight occurrence :=
  (works.keeps (fun _ now => now.InFlight occurrence ↔ scheduler.InFlight occurrence)
    (fun coherent holds step => (step.inFlight_iff coherent.counted.wellFormed).trans holds)
    coherent Iff.rfl).2

theorem Works.no_inFlight {schema : Schema} {root : Digest}
    (works : Works H store [.node none ⟨.root, root⟩] (idle schema) after) :
    ¬ after.InFlight occurrence := by
  rw [works.inFlight_iff (coherent_node (coherent_idle schema) ⟨.root, root⟩)]
  rintro ⟨id, request, -, live, -⟩
  simp [idle, RequestTable.live?, RequestTable.empty] at live

theorem inFlight_handedOut (wellFormed : scheduler.requests.WellFormed) (max : Nat)
    (codes : CodeTable) :
    Scheduler.InFlight
        { scheduler with requests := scheduler.requests.handedOut max, codes } occurrence ↔
      scheduler.requests.Offered (scheduler.requests.chosen max) occurrence ∨
        scheduler.InFlight occurrence := by
  constructor
  · rintro ⟨id, request, inFlight, live, rfl⟩
    rcases (RequestTable.mem_inFlight_handedOut _ _ _).mp inFlight with chosen | inFlight
    · obtain ⟨⟨path, _⟩, entry_mem, rfl⟩ := List.mem_map.mp chosen
      obtain ⟨queued, queued_live, rfl, unknown⟩ :=
        wellFormed.queue_live (RequestTable.queue_of_mem_chosen entry_mem)
      obtain rfl := Option.some.inj (queued_live.symm.trans live)
      exact .inl ⟨_, _, entry_mem, queued_live, unknown, rfl⟩
    · exact .inr ⟨id, request, inFlight, live, rfl⟩
  · rintro (⟨id, request, chosen, live, -, rfl⟩ | ⟨id, request, inFlight, live, rfl⟩)
    · exact ⟨id, request, (RequestTable.mem_inFlight_handedOut _ _ _).mpr
        (.inl (List.mem_map_of_mem chosen)), live, rfl⟩
    · exact ⟨id, request, (RequestTable.mem_inFlight_handedOut _ _ _).mpr (.inr inFlight), live, rfl⟩

theorem Addressed.inFlight_received (addressed : Addressed H [] scheduler past)
    (wellFormed : scheduler.requests.WellFormed)
    (live : scheduler.requests.live? id = some request) (bytes : Bytes) :
    ((scheduler.received id request bytes).awaited (some id)).InFlight occurrence ↔
      scheduler.InFlight occurrence ∧ request.occurrence.path ≠ occurrence.path := by
  have erased (other : RequestId) :
      other ∈ ((scheduler.received id request bytes).awaited (some id)).requests.inFlight ↔
        id ≠ other ∧ other ∈ scheduler.requests.inFlight := by
    rw [inFlight_awaited]
    exact Entries.mem_erase_iff
  constructor
  · rintro ⟨other, current, inFlight, current_live, rfl⟩
    obtain ⟨other_ne, inFlight⟩ := (erased other).mp inFlight
    have old_live := ((received_cases live current_live).resolve_left fun same => other_ne same.1).2
    refine ⟨⟨other, _, inFlight, old_live, rfl⟩, fun same => other_ne ?_⟩
    exact addressed.id_eq_of_mem_paths wellFormed live old_live List.mem_cons_self
      (same ▸ List.mem_cons_self)
  · rintro ⟨⟨other, current, inFlight, current_live, rfl⟩, path_ne⟩
    have other_ne : id ≠ other := by
      rintro rfl
      obtain rfl := Option.some.inj (live.symm.trans current_live)
      exact path_ne rfl
    have received_live := (live?_received live bytes other).trans (if_neg other_ne)
    obtain ⟨pending, awaited_live⟩ :=
      exists_awaited_of_live (some id) (received_live.trans current_live)
    exact ⟨other, _, (erased other).mpr ⟨other_ne, inFlight⟩, awaited_live, rfl⟩

theorem inFlight_iff_of_performed (coherent : Coherent [] scheduler)
    (addressed : Addressed H [] scheduler past)
    (performed : scheduler.perform H store call = .ok after)
    (turn : Turn H scheduler call tasks start) (start_coherent : Coherent tasks start)
    (works : Works H store tasks start after) :
    after.InFlight occurrence ↔
      (scheduler.InFlight occurrence ∧
        ∀ bytes, .answeredNode occurrence.path bytes ∉ scheduler.messages H store call) ∨
      .askedNode occurrence ∈ scheduler.messages H store call := by
  rw [works.inFlight_iff start_coherent]
  cases turn with
  | addSubTrie | addCode => simp [messages]
  | @missing max =>
      obtain ⟨occurrences, -, -, offered_iff, messages_eq⟩ := messages_missing coherent H store max
      rw [inFlight_handedOut coherent.counted.wellFormed, ← offered_iff, messages_eq]
      simp [or_comm]
  | @processNode path bytes id request references responsible inFlight live path_eq =>
      rw [addressed.inFlight_received coherent.counted.wellFormed live, path_eq,
        messages_processNode performed]
      simp [eq_comm]
  | processCode =>
      rw [messages_processCode performed]
      simp [InFlight]

end inFlight

section codes

variable {call : Call} {start : Scheduler} {digest : Digest}

theorem Works.codes_inFlight_eq (works : Works H store tasks scheduler after)
    (coherent : Coherent tasks scheduler) : after.codes.inFlight = scheduler.codes.inFlight := by
  refine (works.keeps (fun _ now => now.codes.inFlight = scheduler.codes.inFlight) ?_
    coherent rfl).2
  intro task tasks now new next _ same step
  rcases step.codes_cases with codes_eq | ⟨parent, path, digest, -, -, -, codes_eq⟩
  · rw [codes_eq, same]
  · rw [codes_eq, CodeTable.inFlight_insert, same]

theorem mem_codes_inFlight_iff_of_performed (coherent : Coherent [] scheduler)
    (performed : scheduler.perform H store call = .ok after)
    (turn : Turn H scheduler call tasks start) (start_coherent : Coherent tasks start)
    (works : Works H store tasks start after) :
    digest ∈ after.codes.inFlight ↔
      (digest ∈ scheduler.codes.inFlight ∧
        ∀ bytes, .answeredCode digest bytes ∉ scheduler.messages H store call) ∨
      .askedCode digest ∈ scheduler.messages H store call := by
  rw [works.codes_inFlight_eq start_coherent]
  cases turn with
  | addSubTrie | addCode => simp [messages]
  | @missing max =>
      obtain ⟨occurrences, -, -, -, messages_eq⟩ := messages_missing coherent H store max
      rw [CodeTable.mem_inFlight_handOut, messages_eq]
      simp [or_comm]
  | processNode =>
      rw [messages_processNode performed, codes_awaited]
      simp [received]
  | @processCode answered bytes =>
      rw [CodeTable.mem_inFlight_remove, messages_processCode performed]
      simp [eq_comm, and_comm]

end codes

theorem notMem_messages (coherent : Coherent [] scheduler) (H : Hash) (store : Store)
    (call : Call) :
    ((∀ path bytes, .answeredNode path bytes ∉ scheduler.messages H store call) ∧
      ∀ digest bytes, .answeredCode digest bytes ∉ scheduler.messages H store call) ∨
    (∀ occurrence, .askedNode occurrence ∉ scheduler.messages H store call) ∧
      ∀ digest, .askedCode digest ∉ scheduler.messages H store call := by
  cases call with
  | addSubTrie | addCode => simp [messages]
  | missing max =>
      obtain ⟨occurrences, -, -, -, messages_eq⟩ := messages_missing coherent H store max
      simp [messages_eq]
  | processNode | processCode =>
      rw [messages]
      split <;> simp

section requested

variable {call : Call} {start : Scheduler} {schema : Schema}

/-- Every request whose bytes are not known is queued or in flight. -/
def Requested (scheduler : Scheduler) : Prop :=
  ∀ id request, scheduler.requests.live? id = some request → request.bytes = none →
    scheduler.requests.queue[request.occurrence.path]? = some id ∨
      id ∈ scheduler.requests.inFlight

theorem Requested.step (h : scheduler.Requested)
    (addressed : Addressed H (task :: tasks) scheduler past)
    (wellFormed : scheduler.requests.WellFormed) (step : Step H store scheduler task new after) :
    after.Requested := by
  intro id request live unknown
  rcases step.unanswered_cases wellFormed live unknown with
    ⟨old, old_live, occurrence_eq, old_unknown⟩ | ⟨-, -, queue_eq⟩
  · rw [← occurrence_eq]
    exact (h id old old_live old_unknown).imp (addressed.queued_step wellFormed step)
      (step.mem_inFlight_iff wellFormed id).mpr
  · exact .inl (by rw [queue_eq, Entries.getElem?_insert, if_pos rfl])

theorem Requested.turn (h : scheduler.Requested) (turn : Turn H scheduler call tasks start) :
    start.Requested := by
  intro id request live unknown
  cases turn with
  | addSubTrie | addCode | processCode => exact h id request live unknown
  | @missing max =>
      show (scheduler.requests.handedOut max).queue[request.occurrence.path]? = some id ∨
        id ∈ (scheduler.requests.handedOut max).inFlight
      rw [RequestTable.queue_handedOut, RequestTable.mem_inFlight_handedOut]
      rcases h id request live unknown with queued | inFlight
      · split
        · rename_i chosen
          obtain ⟨⟨_, other⟩, entry_mem, rfl⟩ := List.mem_map.mp chosen
          obtain rfl := Option.some.inj
            (queued.symm.trans (RequestTable.queue_of_mem_chosen entry_mem))
          exact .inr (.inl (List.mem_map_of_mem entry_mem))
        · exact .inl queued
      · exact .inr (.inr inFlight)
  | @processNode path bytes answered current references responsible inFlight current_live =>
      rcases received_cases current_live live with ⟨-, rfl⟩ | ⟨other_ne, old_live⟩
      · simp at unknown
      · rw [queue_awaited, inFlight_awaited]
        exact (h id _ old_live unknown).imp_right fun inFlight =>
          Entries.mem_erase_iff.mpr ⟨other_ne, inFlight⟩

/-- All nodes are at places of their own, and what is asked for is queued or in flight. -/
structure Outstanding (H : Hash) (tasks : List Task) (scheduler : Scheduler) : Prop where
  addressed : ∃ past, Addressed H tasks scheduler past
  requested : scheduler.Requested
  codes : scheduler.codes.WellFormed

namespace Outstanding

theorem step (h : Outstanding H (task :: tasks) scheduler)
    (coherent : Coherent (task :: tasks) scheduler) (step : Step H store scheduler task new after) :
    Outstanding H (new ++ tasks) after := by
  obtain ⟨past, addressed⟩ := h.addressed
  obtain ⟨skipped, after_addressed⟩ := addressed.step coherent step
  refine ⟨⟨_, after_addressed⟩, h.requested.step addressed coherent.counted.wellFormed step, ?_⟩
  rcases step.codes_cases with codes_eq | ⟨parent, path, digest, -, -, -, codes_eq⟩
  · rw [codes_eq]
    exact h.codes
  · rw [codes_eq]
    exact h.codes.insert digest path parent

theorem works (h : Outstanding H tasks scheduler) (coherent : Coherent tasks scheduler)
    (works : Works H store tasks scheduler after) : Outstanding H [] after :=
  (works.keeps (Outstanding H) (fun coherent h step => h.step coherent step) coherent h).2

theorem turn (h : Outstanding H [] scheduler) (coherent : Coherent [] scheduler)
    (no_trie : ∀ occurrence, call ≠ .addSubTrie occurrence)
    (turn : Turn H scheduler call tasks start) : Outstanding H tasks start := by
  obtain ⟨past, addressed⟩ := h.addressed
  obtain ⟨skipped, start_addressed⟩ := addressed.turn coherent no_trie turn
  refine ⟨⟨_, start_addressed⟩, h.requested.turn turn, ?_⟩
  cases turn with
  | addSubTrie | addCode => exact h.codes
  | missing => exact h.codes.handOut _
  | processNode =>
      rw [codes_awaited]
      exact h.codes
  | processCode => exact h.codes.remove _

theorem ofRoot (H : Hash) (schema : Schema) (root : Digest) :
    Outstanding H [.node none ⟨.root, root⟩] (idle schema) where
  addressed := ⟨_, Addressed.ofRoot H schema root⟩
  requested := by simp [Requested, idle, RequestTable.live?, RequestTable.empty]
  codes := CodeTable.wellFormed_empty

theorem commit (h : Outstanding H [] scheduler) :
    Outstanding H [] { scheduler with staging := .empty } := by
  obtain ⟨past, addressed⟩ := h.addressed
  exact ⟨⟨_, addressed.commit⟩, h.requested, h.codes⟩

end Outstanding

end requested

end Scheduler

end TrieSync
