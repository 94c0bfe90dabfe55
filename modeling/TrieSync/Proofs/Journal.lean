import TrieSync.Proofs.Transcript

/-!
The work of a scheduler on record: which nodes it is to schedule, and what its index of places and
its queue lead to when it changes them. Keeping the record changes nothing about the work.
-/

namespace TrieSync

/-- What a scheduler does with a place. -/
inductive Event
  /-- A node is to be scheduled at its place. -/
  | scheduled (occurrence : Occurrence)
  /-- A request becomes responsible for a place, instead of the one that was, if any. -/
  | indexed (path : Path) (replaced : Option RequestId)
  /-- A request is queued at its place, instead of the one that was, if any. -/
  | queued (path : Path) (replaced : Option RequestId)
deriving DecidableEq

namespace Event

def scheduled? : Event → Option Occurrence
  | scheduled occurrence => some occurrence
  | indexed _ _ => none
  | queued _ _ => none

def replaced? : Event → Option RequestId
  | scheduled _ => none
  | indexed _ replaced => replaced
  | queued _ replaced => replaced

end Event

/-- A scheduler, and what it has done. -/
structure Journal where
  scheduler : Scheduler
  events : List Event

namespace Journal

/-- Puts a node whose bytes are known at a place, where requests wait for it. -/
abbrev Placement :=
  Occurrence → Bytes → (parents : List RequestId) → Journal → Except Fault Journal

def note (journal : Journal) (event : Event) : Journal :=
  { journal with events := journal.events ++ [event] }

/-- The nodes that were to be scheduled, in order. -/
def scheduled (journal : Journal) : List Occurrence :=
  journal.events.filterMap Event.scheduled?

def indexing (journal : Journal) (path : Path) : Event :=
  .indexed path journal.scheduler.requests.byPath[path]?

def queueing (journal : Journal) (path : Path) : Event :=
  .queued path journal.scheduler.requests.queue[path]?

def await (journal : Journal) (parent : Option RequestId) : Except Fault Journal := do
  return { journal with scheduler := ← journal.scheduler.await parent }

def link (journal : Journal) (id : RequestId) (path : Path) (parent : Option RequestId) :
    Except Fault Journal := do
  let request ← journal.scheduler.requests.get id
  let scheduler ← journal.scheduler.link id path parent
  if path ∈ request.paths then
    return { journal with scheduler }
  else
    return { journal.note (journal.indexing path) with scheduler }

def ask (journal : Journal) (occurrence : Occurrence) (parents : List RequestId) : Journal :=
  { (journal.note (journal.indexing occurrence.path)).note (journal.queueing occurrence.path) with
    scheduler := journal.scheduler.ask occurrence parents }

/-- Obtain a node that is not at its place yet, up to putting it there if its bytes are known. -/
def obtainNode (journal : Journal) (store : Store) (parent : Option RequestId)
    (occurrence : Occurrence) : Except Fault (Journal × Option Bytes) :=
  match journal.scheduler.staging.node? occurrence.digest with
  | some bytes => do return (← journal.await parent, some bytes)
  | none => do
      match ← journal.scheduler.requests.find? occurrence.digest with
      | some id =>
          let waiting ← journal.await parent
          let request ← waiting.scheduler.requests.get id
          match request.bytes with
          | some bytes => return (waiting, some bytes)
          | none => return (← waiting.link id occurrence.path parent, none)
      | none =>
          if store.hasNode occurrence then
            return (journal, none)
          else
            return ((← journal.await parent).ask occurrence parent.toList, none)

/-- Schedule a node, up to putting it at its place if its bytes are known. -/
def meetNode (journal : Journal) (H : Hash) (store : Store) (parent : Option RequestId)
    (occurrence : Occurrence) : Except Fault (Journal × Option Bytes) :=
  if occurrence.digest = emptyRoot H then
    .ok (journal, none)
  else do
    let responsible ← journal.scheduler.requests.responsible? occurrence.path
    match responsible.filter fun (_, request) => request.occurrence.digest = occurrence.digest with
    | some (id, _) => return (← (← journal.await parent).link id occurrence.path parent, none)
    | none =>
        if journal.scheduler.staging.digestAt? occurrence.path = some occurrence.digest then
          return (journal, none)
        else
          journal.obtainNode store parent occurrence

/-- What is left to do with a node that was met. -/
def settle {α : Type} (occurrence : Occurrence) (parent : Option RequestId)
    (place : Occurrence → Bytes → List RequestId → α → Except Fault α) :
    α × Option Bytes → Except Fault α
  | (state, none) => .ok state
  | (state, some bytes) => place occurrence bytes parent.toList state

def scheduleNode (journal : Journal) (H : Hash) (store : Store) (place : Placement)
    (parent : Option RequestId) (occurrence : Occurrence) : Except Fault Journal := do
  settle occurrence parent place
    (← (journal.note (.scheduled occurrence)).meetNode H store parent occurrence)

def resolve (journal : Journal) (H : Hash) (store : Store) (place : Placement) (id : RequestId)
    (path : Path) (references : References) : Except Fault Journal := do
  let held ← journal.await (some id)
  let nodesScheduled ← references.nodes.foldlM
    (fun journal node => journal.scheduleNode H store place (some id) node) held
  let codesScheduled ← references.codes.foldlM
    (fun scheduler code => scheduler.scheduleCode store (some id) path code)
    nodesScheduled.scheduler
  return { nodesScheduled with scheduler := ← codesScheduled.release [id] }

def placeWithin (H : Hash) (store : Store) : (height : Nat) → Placement
  | 0, occurrence, _, _, _ => .error (.endless occurrence)
  | height + 1, occurrence, bytes, parents, journal =>
      match journal.scheduler.schema.references H occurrence.path bytes with
      | .error _ => .ok (journal.ask occurrence parents)
      | .ok references =>
          let (id, requests) :=
            journal.scheduler.requests.insertFetched occurrence bytes parents
          resolve { journal.note (journal.indexing occurrence.path) with
              scheduler := { journal.scheduler with requests } }
            H store (placeWithin H store height) id occurrence.path references

def placement (journal : Journal) (H : Hash) (store : Store) : Placement :=
  placeWithin H store journal.scheduler.maxHeight

def scheduleRoot (journal : Journal) (H : Hash) (store : Store) (occurrence : Occurrence) :
    Except Fault Journal :=
  journal.scheduleNode H store (journal.placement H store) none occurrence

def deliver (journal : Journal) (H : Hash) (store : Store) (id : RequestId)
    (occurrence : Occurrence) (bytes : Bytes) (references : References) : Except Fault Journal := do
  let place := journal.placement H store
  let (aliases, requests) ← journal.scheduler.requests.fetched id bytes
  let resolved ← resolve { journal with scheduler := { journal.scheduler with requests } } H store
    place id occurrence.path references
  aliases.foldlM
    (fun journal other => place ⟨other.path, occurrence.digest⟩ bytes other.parents journal)
    resolved

def processNode (journal : Journal) (H : Hash) (store : Store) (path : Path) (bytes : Bytes) :
    Except Failure Journal := do
  match ← (journal.scheduler.requests.inFlightAt? path).mapError .fault with
  | none => throw (.rejected (.notRequested path))
  | some (id, request) =>
      let expected := request.occurrence.digest
      if H bytes = expected then
        match journal.scheduler.schema.references H path bytes with
        | .error cause => throw (.rejected (.undecodable path cause))
        | .ok references =>
            (journal.deliver H store id request.occurrence bytes references).mapError .fault
      else
        throw (.rejected (.nodeMismatch path expected (H bytes)))

def addSubTrie (journal : Journal) (H : Hash) (store : Store) (occurrence : Occurrence) :
    Except Failure Journal := do
  let responsible ← (journal.scheduler.requests.responsible? occurrence.path).mapError .fault
  let scheduled := responsible.map fun (_, request) => request.occurrence.digest
  let staged := journal.scheduler.staging.digestAt? occurrence.path
  if scheduled.all (· = occurrence.digest) && staged.all (· = occurrence.digest) then
    (journal.scheduleRoot H store occurrence).mapError .fault
  else
    throw (.rejected (.pathConflict occurrence.path))

/-- Code is scheduled, and requests are handed out, without a change to the index. -/
def perform (journal : Journal) (H : Hash) (store : Store) : Call → Except Failure Journal
  | .addSubTrie occurrence => journal.addSubTrie H store occurrence
  | .processNode path bytes => journal.processNode H store path bytes
  | call => do return { journal with scheduler := ← journal.scheduler.perform H store call }

def act (journal : Journal) (H : Hash) : Deed → Except Fault Journal
  | .call store call =>
      match journal.perform H store call with
      | .ok after => .ok after
      | .error (.rejected _) => .ok journal
      | .error (.fault fault) => .error fault
  | .commit store batch =>
      .ok { journal with scheduler := (journal.scheduler.commit batch store).scheduler }

/-- The life of a scheduler for a root, on record. -/
def life (H : Hash) (store : Store) (schema : Schema) (root : Digest) (deeds : List Deed) :
    Except Fault Journal := do
  let journal ← scheduleRoot ⟨.idle schema, []⟩ H store ⟨.root, root⟩
  deeds.foldlM (fun journal deed => journal.act H deed) journal

section erasure

variable {H : Hash} {store : Store}

private theorem map_bind {ε α β : Type} {recorded : Except ε Journal}
    {plain : Except ε Scheduler} {next : Journal → Except ε α} {next' : Scheduler → Except ε β}
    {f : α → β} (first : recorded.map Journal.scheduler = plain)
    (second : ∀ journal, (next journal).map f = next' journal.scheduler) :
    (recorded >>= next).map f = plain >>= next' := by
  subst first
  cases recorded with
  | error error => rfl
  | ok journal => exact second journal

theorem map_await (journal : Journal) (parent : Option RequestId) :
    (journal.await parent).map scheduler = journal.scheduler.await parent := by
  unfold await
  cases journal.scheduler.await parent <;> rfl

theorem map_link (journal : Journal) (id : RequestId) (path : Path) (parent : Option RequestId) :
    (journal.link id path parent).map scheduler = journal.scheduler.link id path parent := by
  unfold link Scheduler.link RequestTable.link
  cases journal.scheduler.requests.get id with
  | error fault => rfl
  | ok request =>
      by_cases member : path ∈ request.paths <;>
        simp [member, bind, Except.bind, pure, Except.pure, Except.map]

private theorem obtainNode_eq (journal : Journal) (store : Store) (place : Scheduler.Placement)
    (parent : Option RequestId) (occurrence : Occurrence) :
    journal.scheduler.obtainNode store place parent occurrence =
      journal.obtainNode store parent occurrence >>= fun met =>
        settle occurrence parent place (met.1.scheduler, met.2) := by
  unfold obtainNode Scheduler.obtainNode
  cases journal.scheduler.staging.node? occurrence.digest with
  | some bytes =>
      unfold await
      cases journal.scheduler.await parent <;> rfl
  | none =>
      cases journal.scheduler.requests.find? occurrence.digest with
      | error fault => rfl
      | ok found =>
          cases found with
          | none =>
              cases store.hasNode occurrence with
              | true => rfl
              | false =>
                  unfold await
                  cases journal.scheduler.await parent <;> rfl
          | some id =>
              unfold await
              cases journal.scheduler.await parent with
              | error fault => rfl
              | ok waiting =>
                  have link_eq :=
                    map_link { journal with scheduler := waiting } id occurrence.path parent
                  simp only [bind, Except.bind, pure, Except.pure]
                  cases waiting.requests.get id with
                  | error fault => rfl
                  | ok request =>
                      cases known : request.bytes with
                      | some bytes => simp only [known]; rfl
                      | none =>
                          simp only [known, ← link_eq]
                          cases link { journal with scheduler := waiting } id occurrence.path parent
                            <;> rfl

theorem scheduleNode_eq (journal : Journal) (H : Hash) (store : Store)
    (place : Scheduler.Placement) (parent : Option RequestId) (occurrence : Occurrence) :
    journal.scheduler.scheduleNode H store place parent occurrence =
      journal.meetNode H store parent occurrence >>= fun met =>
        settle occurrence parent place (met.1.scheduler, met.2) := by
  unfold meetNode Scheduler.scheduleNode
  by_cases empty : occurrence.digest = emptyRoot H
  · simp only [empty, if_true]
    rfl
  · simp only [empty, if_false]
    cases journal.scheduler.requests.responsible? occurrence.path with
    | error fault => rfl
    | ok responsible =>
        simp only [bind, Except.bind]
        generalize responsible.filter _ = joined
        cases joined with
        | some found =>
            obtain ⟨id, request⟩ := found
            unfold await
            cases journal.scheduler.await parent with
            | error fault => rfl
            | ok waiting =>
                have link_eq :=
                  map_link { journal with scheduler := waiting } id occurrence.path parent
                simp only [bind, Except.bind, pure, Except.pure, ← link_eq]
                cases link { journal with scheduler := waiting } id occurrence.path parent <;> rfl
        | none =>
            by_cases staged :
                journal.scheduler.staging.digestAt? occurrence.path = some occurrence.digest
            · simp only [staged, if_true]
              rfl
            · simp only [staged, if_false]
              exact obtainNode_eq journal store place parent occurrence

/-- A placement on record does what one does without. -/
def Mirrors (recorded : Placement) (plain : Scheduler.Placement) : Prop :=
  ∀ occurrence bytes parents journal,
    (recorded occurrence bytes parents journal).map scheduler =
      plain occurrence bytes parents journal.scheduler

variable {recorded : Placement} {plain : Scheduler.Placement}

theorem map_scheduleNode (mirrors : Mirrors recorded plain) (journal : Journal)
    (parent : Option RequestId) (occurrence : Occurrence) :
    (journal.scheduleNode H store recorded parent occurrence).map scheduler =
      journal.scheduler.scheduleNode H store plain parent occurrence := by
  have noted := scheduleNode_eq (journal.note (.scheduled occurrence)) H store plain parent occurrence
  rw [scheduleNode, show journal.scheduler.scheduleNode H store plain parent occurrence = _ from noted]
  cases (journal.note (.scheduled occurrence)).meetNode H store parent occurrence with
  | error fault => rfl
  | ok met =>
      obtain ⟨after, _ | bytes⟩ := met
      · rfl
      · exact mirrors occurrence bytes parent.toList after

private theorem map_foldlM {α : Type} {next : Journal → α → Except Fault Journal}
    {next' : Scheduler → α → Except Fault Scheduler}
    (same : ∀ journal item, (next journal item).map scheduler = next' journal.scheduler item)
    (items : List α) (journal : Journal) :
    (items.foldlM next journal).map scheduler = items.foldlM next' journal.scheduler := by
  induction items generalizing journal with
  | nil => rfl
  | cons item items ih =>
      rw [List.foldlM_cons, List.foldlM_cons]
      exact map_bind (same journal item) ih

theorem map_resolve (mirrors : Mirrors recorded plain) (journal : Journal) (id : RequestId)
    (path : Path) (references : References) :
    (journal.resolve H store recorded id path references).map scheduler =
      journal.scheduler.resolve H store plain id path references := by
  unfold resolve Scheduler.resolve
  refine map_bind (map_await journal _) fun held => ?_
  refine map_bind (map_foldlM (fun journal node => map_scheduleNode mirrors journal _ node) _ held)
    fun nodesScheduled => ?_
  cases references.codes.foldlM
      (fun scheduler code => scheduler.scheduleCode store (some id) path code)
      nodesScheduled.scheduler with
  | error fault => rfl
  | ok codesScheduled =>
      simp only [bind, Except.bind]
      cases codesScheduled.release [id] <;> rfl

theorem mirrors_placeWithin (H : Hash) (store : Store) (height : Nat) :
    Mirrors (placeWithin H store height) (Scheduler.placeWithin H store height) := by
  induction height with
  | zero => exact fun _ _ _ _ => rfl
  | succ height ih =>
      intro occurrence bytes parents journal
      unfold placeWithin Scheduler.placeWithin
      cases journal.scheduler.schema.references H occurrence.path bytes with
      | error cause => rfl
      | ok references => exact map_resolve ih _ _ _ _

theorem map_scheduleRoot (journal : Journal) (occurrence : Occurrence) :
    (journal.scheduleRoot H store occurrence).map scheduler =
      journal.scheduler.scheduleRoot H store occurrence :=
  map_scheduleNode (mirrors_placeWithin H store _) journal none occurrence

theorem map_deliver (journal : Journal) (id : RequestId) (occurrence : Occurrence) (bytes : Bytes)
    (references : References) :
    (journal.deliver H store id occurrence bytes references).map scheduler =
      journal.scheduler.deliver H store id occurrence bytes references := by
  have mirrors := mirrors_placeWithin H store journal.scheduler.maxHeight
  unfold deliver Scheduler.deliver
  cases journal.scheduler.requests.fetched id bytes with
  | error fault => rfl
  | ok fetched =>
      refine map_bind (map_resolve mirrors _ _ _ _) fun resolved => ?_
      exact map_foldlM (fun journal other => mirrors _ bytes other.parents journal) _ resolved

theorem map_perform (journal : Journal) (call : Call) :
    (journal.perform H store call).map scheduler = journal.scheduler.perform H store call := by
  have map_mapError {outcome : Except Fault Journal} {plain : Except Fault Scheduler}
      (same : outcome.map scheduler = plain) :
      (outcome.mapError Failure.fault).map scheduler = plain.mapError .fault := by
    subst same
    cases outcome <;> rfl
  cases call with
  | addSubTrie occurrence =>
      simp only [perform, Scheduler.perform, addSubTrie, Scheduler.addSubTrie]
      cases journal.scheduler.requests.responsible? occurrence.path with
      | error fault => rfl
      | ok responsible =>
          simp only [bind, Except.bind, Except.mapError]
          split
          · exact map_mapError (map_scheduleRoot journal occurrence)
          · rfl
  | processNode path bytes =>
      simp only [perform, Scheduler.perform, processNode, Scheduler.processNode]
      cases journal.scheduler.requests.inFlightAt? path with
      | error fault => rfl
      | ok found =>
          simp only [bind, Except.bind, Except.mapError]
          obtain _ | ⟨id, request⟩ := found
          · rfl
          · simp only
            split
            · cases journal.scheduler.schema.references H path bytes with
              | error cause => rfl
              | ok references =>
                  exact map_mapError (map_deliver journal id request.occurrence bytes references)
            · rfl
  | addCode | missing | processCode =>
      simp only [perform, bind, Except.bind]
      split <;> simp_all [Except.map, pure, Except.pure]

theorem map_act (journal : Journal) (deed : Deed) :
    (journal.act H deed).map scheduler = journal.scheduler.act H deed := by
  cases deed with
  | call store call =>
      rw [act, Scheduler.act, ← map_perform]
      cases journal.perform H store call with
      | ok after => rfl
      | error failure => cases failure <;> rfl
  | commit => rfl

theorem map_life (H : Hash) (store : Store) (schema : Schema) (root : Digest) (deeds : List Deed) :
    (life H store schema root deeds).map scheduler =
      (Scheduler.life H store schema root deeds).map Prod.fst := by
  unfold life Scheduler.life Scheduler.ofRoot
  have started : (scheduleRoot ⟨.idle schema, []⟩ H store ⟨.root, root⟩).map scheduler =
      (Scheduler.idle schema).scheduleRoot H store ⟨.root, root⟩ := map_scheduleRoot _ _
  rw [← started]
  cases scheduleRoot ⟨.idle schema, []⟩ H store ⟨.root, root⟩ with
  | error fault => rfl
  | ok journal =>
      exact (map_foldlM (fun journal deed => map_act journal deed) deeds journal).trans
        (foldlM_recorded deeds journal.scheduler []).symm

end erasure

end Journal

end TrieSync
