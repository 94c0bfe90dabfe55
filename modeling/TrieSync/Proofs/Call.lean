import TrieSync.Proofs.Knowledge

namespace TrieSync

/-- What a scheduler can be told to do, apart from writing to the store. -/
inductive Call
  | addSubTrie (occurrence : Occurrence)
  | addCode (digest : Digest) (path : Path)
  | missing (max : Nat)
  | processNode (path : Path) (bytes : Bytes)
  | processCode (digest : Digest) (bytes : Bytes)

/-- Where a task is about to put or to ask for a node. -/
def Task.opens (H : Hash) : Task → List Occurrence
  | node _ occurrence => if occurrence.digest = emptyRoot H then [] else [occurrence]
  | code _ _ _ => []
  | place occurrence _ _ => [occurrence]
  | release _ => []

/-- Put the node of a request at the other places that wait for it. -/
def Request.copies (request : Request) (bytes : Bytes) : List Task :=
  request.aliases.map fun other =>
    .place ⟨other.path, request.occurrence.digest⟩ bytes other.parents

theorem Request.exists_of_place_mem_copies {request : Request} {bytes known : Bytes}
    {occurrence : Occurrence} {parents : List RequestId}
    (h : .place occurrence known parents ∈ request.copies bytes) :
    occurrence.digest = request.occurrence.digest ∧ known = bytes := by
  obtain ⟨other, -, place_eq⟩ := List.mem_map.mp h
  obtain ⟨rfl, rfl, -⟩ := Task.place.inj place_eq
  exact ⟨rfl, rfl⟩

namespace Scheduler

variable {H : Hash} {store : Store} {tasks : List Task} {scheduler start after : Scheduler}
  {call : Call}

def perform (scheduler : Scheduler) (H : Hash) (store : Store) : Call → Except Failure Scheduler
  | .addSubTrie occurrence => scheduler.addSubTrie H store occurrence
  | .addCode digest path => (scheduler.addCode store digest path).mapError .fault
  | .missing max => ((scheduler.missing max).map Prod.snd).mapError .fault
  | .processNode path bytes => scheduler.processNode H store path bytes
  | .processCode digest bytes => scheduler.processCode H digest bytes

/-- Take the bytes of the node of a request, where nodes are put at further places in a given way. -/
def deliverThrough (scheduler : Scheduler) (H : Hash) (store : Store) (place : Placement)
    (id : RequestId) (occurrence : Occurrence) (bytes : Bytes) (references : References) :
    Except Fault Scheduler := do
  let (aliases, requests) ← scheduler.requests.fetched id bytes
  let resolved ← { scheduler with requests }.resolve H store place id occurrence.path references
  aliases.foldlM
    (fun scheduler other => place ⟨other.path, occurrence.digest⟩ bytes other.parents scheduler)
    resolved

/-- What a call comes to if nodes are put at further places in a given way. -/
def performThrough (scheduler : Scheduler) (H : Hash) (store : Store) (place : Placement) :
    Call → Except Failure Scheduler
  | .addSubTrie occurrence => do
      let responsible ← (scheduler.requests.responsible? occurrence.path).mapError .fault
      let scheduled := responsible.map fun (_, request) => request.occurrence.digest
      let staged := scheduler.staging.digestAt? occurrence.path
      if scheduled.all (· = occurrence.digest) && staged.all (· = occurrence.digest) then
        (scheduler.scheduleNode H store place none occurrence).mapError .fault
      else
        throw (.rejected (.pathConflict occurrence.path))
  | .processNode path bytes => do
      match ← (scheduler.requests.inFlightAt? path).mapError .fault with
      | none => throw (.rejected (.notRequested path))
      | some (id, request) =>
          let expected := request.occurrence.digest
          if H bytes = expected then
            match scheduler.schema.references H path bytes with
            | .error cause => throw (.rejected (.undecodable path cause))
            | .ok references =>
                (scheduler.deliverThrough H store place id request.occurrence bytes
                  references).mapError .fault
          else
            throw (.rejected (.nodeMismatch path expected (H bytes)))
  | call => scheduler.perform H store call

theorem performThrough_placement (scheduler : Scheduler) (H : Hash) (store : Store) (call : Call) :
    scheduler.performThrough H store (scheduler.placement H store) call =
      scheduler.perform H store call := by
  cases call <;> rfl

/-- The scheduler after the bytes of a live request arrived. -/
def received (scheduler : Scheduler) (id : RequestId) (request : Request) (bytes : Bytes) :
    Scheduler :=
  { scheduler with requests := scheduler.requests.answered id request bytes }

theorem live?_received {id : RequestId} {request : Request}
    (live : scheduler.requests.live? id = some request) (bytes : Bytes) (other : RequestId) :
    (scheduler.received id request bytes).requests.live? other =
      if id = other then some { request with bytes := some bytes, aliases := [] }
      else scheduler.requests.live? other :=
  RequestTable.live?_answered live bytes other

theorem live?_received_self {id : RequestId} {request : Request}
    (live : scheduler.requests.live? id = some request) (bytes : Bytes) :
    (scheduler.received id request bytes).requests.live? id =
      some { request with bytes := some bytes, aliases := [] } :=
  (live?_received live bytes id).trans (if_pos rfl)

theorem received_cases {id other : RequestId} {request current : Request} {bytes : Bytes}
    (live : scheduler.requests.live? id = some request)
    (current_live : ((scheduler.received id request bytes).awaited (some id)).requests.live? other =
      some current) :
    id = other ∧ current = { request with
        bytes := some bytes, aliases := [], pending := request.pending + 1 } ∨
      id ≠ other ∧ scheduler.requests.live? other = some current := by
  rw [live?_awaited, live?_received live] at current_live
  by_cases same : id = other
  · simp only [same, if_true, Option.map_some, Option.some.injEq] at current_live
    exact .inl ⟨same, current_live.symm⟩
  · simp only [same, Option.some.injEq, if_false, Option.map_id'] at current_live
    exact .inr ⟨same, current_live⟩

/-- How a call that is not refused begins. -/
inductive Turn (H : Hash) (scheduler : Scheduler) : Call → List Task → Scheduler → Prop
  | addSubTrie {occurrence} : Turn H scheduler (.addSubTrie occurrence) [.node none occurrence]
      scheduler
  | addCode {digest path} : Turn H scheduler (.addCode digest path) [.code none path digest]
      scheduler
  | missing {max} : Turn H scheduler (.missing max) []
      { scheduler with
        requests := scheduler.requests.handedOut max
        codes := (scheduler.codes.handOut max).2 }
  | processNode {path bytes id request references}
      (responsible : scheduler.requests.byPath[path]? = some id)
      (inFlight : id ∈ scheduler.requests.inFlight)
      (live : scheduler.requests.live? id = some request)
      (path_eq : request.occurrence.path = path) (digest_eq : H bytes = request.occurrence.digest)
      (decoded : scheduler.schema.references H path bytes = .ok references) :
      Turn H scheduler (.processNode path bytes)
        (references.tasks id path ++ request.copies bytes)
        ((scheduler.received id request bytes).awaited (some id))
  | processCode {digest bytes} (inFlight : digest ∈ scheduler.codes.inFlight)
      (digest_eq : H bytes = digest) :
      Turn H scheduler (.processCode digest bytes)
        ((scheduler.codes.remove digest).1.reverse.map .release)
        { scheduler with
          codes := (scheduler.codes.remove digest).2
          staging := scheduler.staging.insertCode digest bytes }

theorem Turn.schema_eq (turn : Turn H scheduler call tasks start) :
    start.schema = scheduler.schema := by
  cases turn with
  | addSubTrie | addCode | missing | processCode => rfl
  | processNode => simp [received]

theorem Turn.nodes_eq (turn : Turn H scheduler call tasks start) :
    start.staging.nodes = scheduler.staging.nodes := by
  cases turn with
  | addSubTrie | addCode | missing | processCode => rfl
  | processNode => simp [received]

/-- Doing the tasks, and those that they lead to, until none is left. -/
inductive Works (H : Hash) (store : Store) : List Task → Scheduler → Scheduler → Prop
  | done {scheduler : Scheduler} : Works H store [] scheduler scheduler
  | step {task : Task} {tasks new : List Task} {scheduler next after : Scheduler}
      (step : Step H store scheduler task new next)
      (works : Works H store (new ++ tasks) next after) :
      Works H store (task :: tasks) scheduler after

theorem Works.keeps (works : Works H store tasks scheduler after)
    (P : List Task → Scheduler → Prop) (kept : Kept H store P) (coherent : Coherent tasks scheduler)
    (holds : P tasks scheduler) : Coherent [] after ∧ P [] after := by
  induction works with
  | done => exact ⟨coherent, holds⟩
  | step step works ih => exact ih (coherent.step step) (kept coherent holds step)

theorem Works.coherent (works : Works H store tasks scheduler after)
    (coherent : Coherent tasks scheduler) : Coherent [] after :=
  (works.keeps (fun _ _ => True) (fun _ _ _ => trivial) coherent trivial).1

theorem Works.schema_eq (works : Works H store tasks scheduler after) :
    after.schema = scheduler.schema := by
  induction works with
  | done => rfl
  | step step works ih => exact ih.trans step.schema_eq

theorem Coherent.turn (h : Coherent [] scheduler) (turn : Turn H scheduler call tasks start) :
    Coherent tasks start := by
  have counted : Counted [] scheduler := h.counted
  cases turn with
  | addSubTrie | addCode => exact ⟨counted, by simp [Task.HeldOpen, Task.parent?]⟩
  | missing => exact ⟨counted.handOut _ _ rfl, trivial⟩
  | @processNode path bytes id request references responsible inFlight live path_eq digest_eq
      decoded =>
      have copies_open : Task.HeldOpen (request.copies bytes) := by
        unfold Request.copies
        induction request.aliases with
        | nil => trivial
        | cons first rest ih => exact ⟨by simp [Task.parent?], ih⟩
      have received_counted : Counted ((request.copies bytes).flatMap Task.held)
          (scheduler.received id request bytes) := by
        unfold received
        simpa [Request.copies, List.flatMap_map, Task.held] using
          counted.answered live inFlight bytes
      refine ⟨?_, heldOpen_tasks copies_open⟩
      rw [List.flatMap_append, flatMap_held_tasks]
      show Counted ((some id).toList ++ _) _
      refine received_counted.awaited ?_
      intro other same
      obtain rfl := Option.mem_some.mp same
      exact ⟨_, live?_received_self live bytes⟩
  | @processCode digest bytes inFlight digest_eq =>
      have removed := counted.removeCode digest (scheduler.staging.insertCode digest bytes)
      have releases_open : Task.HeldOpen
          ((scheduler.codes.remove digest).1.reverse.map .release ++ []) :=
        heldOpen_releases trivial
      rw [List.append_nil] at releases_open
      refine ⟨?_, releases_open⟩
      rw [flatMap_held_releases]
      refine removed.perm ?_
      rw [List.append_nil]
      exact (List.reverse_perm _).symm

theorem Holds.turn {schema : Schema} {known : Digest → Bytes → Prop}
    (h : Holds schema known [] scheduler) (turn : Turn H scheduler call tasks start)
    (delivered : ∀ {path bytes}, call = .processNode path bytes → known (H bytes) bytes) :
    Holds schema known tasks start := by
  cases turn with
  | addSubTrie | addCode => exact ⟨h.schema_eq, h.knows, by simp⟩
  | missing => exact ⟨h.schema_eq, h.knows, by simp⟩
  | @processNode path bytes id request references responsible inFlight live path_eq digest_eq
      decoded =>
      have bytes_known : known request.occurrence.digest bytes := digest_eq ▸ delivered rfl
      refine ⟨by simp [received, h.schema_eq], ?_, ?_⟩
      · rintro digest known_bytes (staged | ⟨other, current, current_live, rfl, current_eq⟩)
        · exact h.knows (.inl (by simpa [received] using staged))
        · rcases received_cases live current_live with ⟨-, rfl⟩ | ⟨-, old_live⟩
          · exact Option.some.inj current_eq ▸ bytes_known
          · exact (h.known_of_live old_live) current_eq
      · intro occurrence known_bytes parents member
        rcases List.mem_append.mp member with member | member
        · simp [References.tasks] at member
        · obtain ⟨copy_eq, rfl⟩ := Request.exists_of_place_mem_copies member
          exact copy_eq ▸ bytes_known
  | processCode => exact ⟨h.schema_eq, h.knows, by simp⟩

theorem Holds.works {schema : Schema} {known : Digest → Bytes → Prop}
    (h : Holds schema known tasks scheduler) (coherent : Coherent tasks scheduler)
    (works : Works H store tasks scheduler after) : Holds schema known [] after :=
  (works.keeps _ (fun coherent holds step => Holds.step holds coherent step) coherent h).2

theorem Holds.of_turn (turn : Turn H scheduler call tasks start) :
    Holds start.schema start.Knows tasks start := by
  cases turn with
  | addSubTrie | addCode => exact ⟨rfl, id, by simp⟩
  | missing => exact ⟨rfl, id, by simp⟩
  | @processNode path bytes id request references responsible inFlight live path_eq digest_eq
      decoded =>
      refine ⟨rfl, fun knows => knows, ?_⟩
      intro occurrence known_bytes parents member
      rcases List.mem_append.mp member with member | member
      · simp [References.tasks] at member
      · obtain ⟨copy_eq, rfl⟩ := Request.exists_of_place_mem_copies member
        have received_live := live?_received_self live known_bytes
        obtain ⟨pending, awaited_live⟩ := exists_awaited_of_live (some id) received_live
        exact .inr ⟨id, _, awaited_live, copy_eq.symm, rfl⟩
  | processCode => exact ⟨rfl, id, by simp⟩

section deliver

variable {schema : Schema} {known : Digest → Bytes → Prop} {P : List Task → Scheduler → Prop}

private theorem copies_yields {place : Placement} {endless : Occurrence → Prop}
    (places : Places P place endless) {request : Request} {bytes : Bytes}
    (coherent : Coherent (request.copies bytes) scheduler)
    (holds : P (request.copies bytes) scheduler) :
    Yields
      (request.aliases.foldlM (fun scheduler other =>
        place ⟨other.path, request.occurrence.digest⟩ bytes other.parents scheduler) scheduler)
      (fun after => Coherent [] after ∧ P [] after)
      (∃ other ∈ request.aliases, endless ⟨other.path, request.occurrence.digest⟩) := by
  let copy (other : Alias) : Task :=
    .place ⟨other.path, request.occurrence.digest⟩ bytes other.parents
  refine Yields.foldlM (I := fun left after =>
    Coherent (left.map copy) after ∧ P (left.map copy) after) ?_ ⟨coherent, holds⟩
  rintro other rest scheduler ⟨coherent, holds⟩
  exact places coherent holds

theorem deliverThrough_yields {place : Placement} {endless : Occurrence → Prop}
    (kept : Kept H store P) (places : Places P place endless) {id : RequestId}
    {request : Request} {bytes : Bytes} {references : References}
    (live : scheduler.requests.live? id = some request)
    (coherent : Coherent (references.tasks id request.occurrence.path ++ request.copies bytes)
      ((scheduler.received id request bytes).awaited (some id)))
    (holds : P (references.tasks id request.occurrence.path ++ request.copies bytes)
      ((scheduler.received id request bytes).awaited (some id))) :
    Yields (scheduler.deliverThrough H store place id request.occurrence bytes references)
      (fun after => Coherent [] after ∧ P [] after)
      (∃ upper ∈ (references.tasks id request.occurrence.path ++ request.copies bytes).flatMap
          (Task.opens H), endless upper) := by
  rw [deliverThrough, RequestTable.fetched_eq live]
  refine Yields.bind ((resolve_yields kept places ?_ coherent holds).mono
    (fun _ facts => facts) ?_) ?_
  · exact ⟨_, live?_received_self live bytes⟩
  · rintro ⟨node, node_mem, digest_ne, endless⟩
    refine ⟨node, List.mem_flatMap.mpr ⟨.node (some id) node, List.mem_append_left _ ?_, ?_⟩, endless⟩
    · exact List.mem_append_left _ (List.mem_map_of_mem node_mem)
    · simp [Task.opens, digest_ne]
  · rintro resolved ⟨coherent, holds⟩
    refine (copies_yields places coherent holds).mono (fun _ facts => facts) ?_
    rintro ⟨other, other_mem, endless⟩
    refine ⟨_, List.mem_flatMap.mpr ⟨_, List.mem_append_right _ (List.mem_map_of_mem other_mem), ?_⟩,
      endless⟩
    exact List.mem_singleton_self _

end deliver

/-- The tasks of a call are done, or the bytes that are known lead on too deep for that from a node
that one of them is about. -/
def Outcome (H : Hash) (store : Store) (tasks : List Task) (start : Scheduler)
    (outcome : Except Fault Scheduler) : Prop :=
  (∃ after, outcome = .ok after ∧ Works H store tasks start after) ∨
    ∃ occurrence, outcome = .error (.endless occurrence) ∧ ∃ upper ∈ tasks.flatMap (Task.opens H),
      Descends (Leads H start.schema start.Knows) start.maxHeight upper

/-- The tasks of a call are done, or the bytes that are known lead on deeper than to a given number
of nodes below one another, from a node that one of the tasks is about. -/
def OutcomeWithin (H : Hash) (store : Store) (height : Nat) (tasks : List Task) (start : Scheduler)
    (outcome : Except Fault Scheduler) : Prop :=
  (∃ after, outcome = .ok after ∧ Works H store tasks start after) ∨
    ∃ occurrence, outcome = .error (.endless occurrence) ∧ ∃ upper ∈ tasks.flatMap (Task.opens H),
      Descends (Leads H start.schema start.Knows) height upper

/-- What is left of a call that began with some tasks. -/
private def Rest (H : Hash) (store : Store) (tasks : List Task) (start : Scheduler)
    (left : List Task) (scheduler : Scheduler) : Prop :=
  Holds start.schema start.Knows left scheduler ∧
    ∀ after, Works H store left scheduler after → Works H store tasks start after

private theorem invariant_rest (H : Hash) (store : Store) (tasks : List Task)
    (start : Scheduler) :
    Invariant H store start.schema start.Knows (Rest H store tasks start) where
  kept := fun coherent ⟨holds, works⟩ step =>
    ⟨holds.step coherent step, fun _ rest => works _ (.step step rest)⟩
  known_of_place := fun ⟨holds, _⟩ => ⟨holds.schema_eq, holds.placed List.mem_cons_self⟩

private theorem rest_start (store : Store) (turn : Turn H scheduler call tasks start) :
    Rest H store tasks start tasks start :=
  ⟨.of_turn turn, fun _ works => works⟩

private theorem Yields.outcome {outcome : Except Fault Scheduler} {height : Nat} {endless : Prop}
    (h : Yields outcome (fun after => Coherent [] after ∧ Rest H store tasks start [] after) endless)
    (descends : endless → ∃ upper ∈ tasks.flatMap (Task.opens H),
      Descends (Leads H start.schema start.Knows) height upper) :
    OutcomeWithin H store height tasks start outcome := by
  rcases h.cases with ⟨after, outcome_eq, -, -, works⟩ | ⟨occurrence, outcome_eq, endless⟩
  · exact .inl ⟨after, outcome_eq, works after .done⟩
  · exact .inr ⟨occurrence, outcome_eq, descends endless⟩

theorem scheduleRoot_outcomeWithin (H : Hash) (store : Store) (height : Nat)
    (coherent : Coherent [] scheduler) (occurrence : Occurrence) :
    OutcomeWithin H store height [.node none occurrence] scheduler
      (scheduler.scheduleNode H store (placeWithin H store height) none occurrence) := by
  have turn : Turn H scheduler (.addSubTrie occurrence) [.node none occurrence] scheduler :=
    .addSubTrie
  have invariant := invariant_rest H store [.node none occurrence] scheduler
  refine Yields.outcome (scheduleNode_yields invariant.kept (placeWithin_yields invariant height)
    (coherent.turn turn) (rest_start store turn)) ?_
  rintro ⟨digest_ne, descends⟩
  exact ⟨occurrence, by simp [Task.opens, digest_ne], descends⟩

theorem scheduleRoot_outcome (H : Hash) (store : Store) (coherent : Coherent [] scheduler)
    (occurrence : Occurrence) :
    Outcome H store [.node none occurrence] scheduler
      (scheduler.scheduleRoot H store occurrence) :=
  scheduleRoot_outcomeWithin H store scheduler.maxHeight coherent occurrence

private theorem maxHeight_start (turn : Turn H scheduler call tasks start) :
    start.maxHeight = scheduler.maxHeight := by
  cases turn with
  | addSubTrie | addCode | missing | processCode => rfl
  | processNode responsible inFlight live =>
      simp only [awaited, live?_received live, if_true]
      simp [maxHeight, RequestTable.size, RequestTable.set, received, RequestTable.answered,
        RequestTable.unlink]

private theorem deliver_outcome (store : Store) (height : Nat) (coherent : Coherent [] scheduler)
    {path : Path} {bytes : Bytes} {id : RequestId} {request : Request} {references : References}
    (live : scheduler.requests.live? id = some request) (path_eq : request.occurrence.path = path)
    (turn : Turn H scheduler (.processNode path bytes)
      (references.tasks id path ++ request.copies bytes)
      ((scheduler.received id request bytes).awaited (some id))) :
    OutcomeWithin H store height (references.tasks id path ++ request.copies bytes)
      ((scheduler.received id request bytes).awaited (some id))
      (scheduler.deliverThrough H store (placeWithin H store height) id request.occurrence bytes
        references) := by
  subst path_eq
  have invariant := invariant_rest H store
    (references.tasks id request.occurrence.path ++ request.copies bytes)
    ((scheduler.received id request bytes).awaited (some id))
  exact Yields.outcome (deliverThrough_yields invariant.kept (placeWithin_yields invariant height)
    live (coherent.turn turn) (rest_start store turn)) fun descends => descends

/-- A call is refused, or what comes of the tasks that it begins with is its result, however deep it
may put nodes below one another. -/
theorem performThrough_cases (H : Hash) (store : Store) (height : Nat)
    (coherent : Coherent [] scheduler) (call : Call) :
    (∃ rejection, scheduler.performThrough H store (placeWithin H store height) call =
      .error (.rejected rejection)) ∨
      ∃ tasks start outcome, Turn H scheduler call tasks start ∧
        OutcomeWithin H store height tasks start outcome ∧
        scheduler.performThrough H store (placeWithin H store height) call =
          outcome.mapError .fault := by
  have wellFormed := coherent.counted.wellFormed
  cases call with
  | addSubTrie occurrence =>
      have outcome := scheduleRoot_outcomeWithin H store height coherent occurrence
      rcases RequestTable.responsible?_cases wellFormed occurrence.path with
        ⟨-, responsible_eq⟩ | ⟨id, request, -, -, responsible_eq⟩
      all_goals
        simp only [performThrough, responsible_eq, Except.mapError, bind, Except.bind]
        split
        · exact .inr ⟨_, _, _, .addSubTrie, outcome, rfl⟩
        · exact .inl ⟨_, rfl⟩
  | addCode digest path =>
      have turn : Turn H scheduler (.addCode digest path) [.code none path digest] scheduler :=
        .addCode
      obtain ⟨after, step, schedule_eq⟩ := scheduleCode_step H store (coherent.turn turn)
      refine .inr ⟨_, _, _, turn, .inl ⟨after, schedule_eq, .step step .done⟩, rfl⟩
  | missing max =>
      obtain ⟨occurrences, handOut_eq, -⟩ := RequestTable.handOut_offered wellFormed max
      refine .inr ⟨_, _, .ok _, .missing, .inl ⟨_, rfl, .done⟩, ?_⟩
      simp only [performThrough, perform, missing, handOut_eq]
      rfl
  | processNode path bytes =>
      rcases RequestTable.inFlightAt?_cases wellFormed path with
        inFlightAt_eq | ⟨id, request, responsible, inFlight, live, path_eq, inFlightAt_eq⟩
      · refine .inl ⟨.notRequested path, ?_⟩
        simp only [performThrough, inFlightAt_eq]
        rfl
      · simp only [performThrough, inFlightAt_eq, Except.mapError, bind, Except.bind]
        split
        · rename_i digest_eq
          cases decoded : scheduler.schema.references H path bytes with
          | error cause => exact .inl ⟨_, rfl⟩
          | ok references =>
              have turn : Turn H scheduler (.processNode path bytes) _ _ :=
                .processNode responsible inFlight live path_eq digest_eq decoded
              exact .inr ⟨_, _, _, turn, deliver_outcome store height coherent live path_eq turn,
                rfl⟩
        · exact .inl ⟨_, rfl⟩
  | processCode digest bytes =>
      simp only [performThrough, perform, processCode]
      split
      · rename_i inFlight
        split
        · rename_i digest_eq
          have turn : Turn H scheduler (.processCode digest bytes) _ _ :=
            .processCode inFlight digest_eq
          have start_coherent := coherent.turn turn
          have rest := rest_start store turn
          rw [← List.append_nil (List.map _ _)] at start_coherent rest
          obtain ⟨after, release_eq, -, -, works⟩ :=
            release_ok (fun _ => (invariant_rest H store _ _).kept) _ start_coherent rest
          rw [List.append_nil] at works
          exact .inr ⟨_, _, _, turn, .inl ⟨after, release_eq, works after .done⟩, rfl⟩
        · exact .inl ⟨_, rfl⟩
      · exact .inl ⟨_, rfl⟩

theorem perform_cases (H : Hash) (store : Store) (coherent : Coherent [] scheduler)
    (call : Call) :
    (∃ rejection, scheduler.perform H store call = .error (.rejected rejection)) ∨
      ∃ tasks start outcome, Turn H scheduler call tasks start ∧
        Outcome H store tasks start outcome ∧
        scheduler.perform H store call = outcome.mapError .fault := by
  rw [← performThrough_placement]
  refine (performThrough_cases H store scheduler.maxHeight coherent call).imp_right ?_
  rintro ⟨tasks, start, outcome, turn, outcome_cases, perform_eq⟩
  refine ⟨tasks, start, outcome, turn, ?_, perform_eq⟩
  rw [Outcome, maxHeight_start turn]
  exact outcome_cases

/-- A call returns unless some node is its own descendant. -/
theorem perform_ne_fault {schema : Schema} {known : Digest → Bytes → Prop} (store : Store)
    (acyclic : Acyclic H schema known) (coherent : Coherent [] scheduler)
    (holds : Holds schema known [] scheduler)
    (delivered : ∀ {path bytes}, call = .processNode path bytes → known (H bytes) bytes)
    (fault : Fault) : scheduler.perform H store call ≠ .error (.fault fault) := by
  rcases perform_cases H store coherent call with
    ⟨rejection, refused⟩ | ⟨tasks, start, outcome, turn, outcome_cases, perform_eq⟩
  · simp [refused]
  · rcases outcome_cases with ⟨after, rfl, -⟩ | ⟨occurrence, -, upper, -, descends⟩
    · simp [perform_eq, Except.mapError]
    · have start_holds := holds.turn turn delivered
      rw [start_holds.schema_eq] at descends
      have start_acyclic : Acyclic H schema start.Knows :=
        acyclic.mono fun _ _ => start_holds.knows
      exact absurd descends
        (not_descends_maxHeight (coherent.turn turn).counted.wellFormed start_acyclic upper)

theorem works_of_performThrough {height : Nat} (coherent : Coherent [] scheduler)
    (performed : scheduler.performThrough H store (placeWithin H store height) call = .ok after) :
    ∃ tasks start, Turn H scheduler call tasks start ∧ Coherent tasks start ∧
      Works H store tasks start after := by
  rcases performThrough_cases H store height coherent call with
    ⟨rejection, refused⟩ | ⟨tasks, start, outcome, turn, outcome_cases, perform_eq⟩
  · simp [refused] at performed
  · rcases outcome_cases with ⟨_, rfl, works⟩ | ⟨occurrence, rfl, -⟩
    · obtain rfl := Except.ok.inj (perform_eq.symm.trans performed)
      exact ⟨tasks, start, turn, coherent.turn turn, works⟩
    · simp [perform_eq, Except.mapError] at performed

theorem works_of_perform (coherent : Coherent [] scheduler)
    (performed : scheduler.perform H store call = .ok after) :
    ∃ tasks start, Turn H scheduler call tasks start ∧ Coherent tasks start ∧
      Works H store tasks start after := by
  rw [← performThrough_placement] at performed
  exact works_of_performThrough coherent performed

section idle

variable {schema : Schema} {root : Digest}

theorem coherent_idle (schema : Schema) : Coherent [] (idle schema) where
  counted :=
    { wellFormed := RequestTable.wellFormed_empty
      live_of_mem := by simp [idle, waiters, RequestTable.waiters, RequestTable.requests,
        RequestTable.empty, CodeTable.waiters, CodeTable.empty]
      pending_eq := by simp [idle, RequestTable.live?, RequestTable.empty] }
  heldOpen := trivial

theorem not_knows_idle {digest : Digest} {bytes : Bytes} :
    ¬ (idle schema).Knows digest bytes := by
  simp [Knows, idle, RequestTable.live?, RequestTable.empty]

theorem holds_idle (schema : Schema) (known : Digest → Bytes → Prop) :
    Holds schema known [] (idle schema) where
  schema_eq := rfl
  knows knows := absurd knows not_knows_idle
  placed := by simp

theorem works_of_ofRoot (started : ofRoot H store schema root = .ok after) :
    Works H store [.node none ⟨.root, root⟩] (idle schema) after := by
  rcases scheduleRoot_outcome H store (coherent_idle schema) ⟨.root, root⟩ with
    ⟨_, outcome_eq, works⟩ | ⟨occurrence, outcome_eq, -⟩
  · obtain rfl := Except.ok.inj (outcome_eq.symm.trans started)
    exact works
  · rw [ofRoot, outcome_eq] at started
    simp at started

theorem exists_ofRoot (H : Hash) (store : Store) (schema : Schema) (root : Digest) :
    ∃ after, ofRoot H store schema root = .ok after := by
  rcases scheduleRoot_outcome H store (coherent_idle schema) ⟨.root, root⟩ with
    ⟨after, outcome_eq, -⟩ |
      ⟨occurrence, -, upper, -, lower, ⟨bytes, references, known, -⟩, -⟩
  · exact ⟨after, outcome_eq⟩
  · exact absurd known not_knows_idle

theorem coherent_node (h : Coherent [] scheduler) (occurrence : Occurrence) :
    Coherent [.node none occurrence] scheduler :=
  ⟨h.counted, by simp [Task.HeldOpen, Task.parent?]⟩

end idle

end Scheduler

end TrieSync
