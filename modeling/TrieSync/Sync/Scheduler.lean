import TrieSync.References
import TrieSync.Sync.CodeTable
import TrieSync.Sync.RequestTable
import TrieSync.Sync.Staging

/-!
Synchronization of a trie, with all that its nodes refer to, into a store. A scheduler hands out
requests, takes the answers in any order, and stages a node once everything below it is staged or
stored.
-/

namespace TrieSync

structure Scheduler where
  schema : Schema
  requests : RequestTable
  codes : CodeTable
  staging : Staging

/-- Why a scheduler refuses what it is given. -/
inductive Rejection
  | notRequested (path : Path)
  | codeNotRequested (digest : Digest)
  | nodeMismatch (path : Path) (expected actual : Digest)
  | codeMismatch (expected actual : Digest)
  | undecodable (path : Path) (cause : ReferenceError)
  | pathConflict (path : Path)
deriving DecidableEq

namespace Rejection

def message : Rejection → String
  | notRequested path => "no request in flight for node at " ++ path.display
  | codeNotRequested digest => "no request in flight for code " ++ digest.hex
  | nodeMismatch path expected actual =>
      "node at " ++ path.display ++ " hashes to " ++ actual.hex ++ ", expected " ++ expected.hex
  | codeMismatch expected actual =>
      "code hashes to " ++ actual.hex ++ ", expected " ++ expected.hex
  | undecodable path cause => "undecodable node at " ++ path.display ++ ": " ++ cause.message
  | pathConflict path => "a different node is already scheduled at " ++ path.display

end Rejection

inductive Failure
  | rejected (rejection : Rejection)
  | fault (fault : Fault)
deriving DecidableEq

/-- What a scheduler asks for. -/
structure Missing where
  nodes : List Occurrence
  codes : List Digest
deriving DecidableEq

/-- What is left after a commit. -/
structure Commit where
  result : Except WriteError Nat
  scheduler : Scheduler
  batch : Batch
  store : Store

namespace Scheduler

/-- Puts a node whose bytes are known at a place, where requests wait for it. -/
abbrev Placement :=
  Occurrence → Bytes → (parents : List RequestId) → Scheduler → Except Fault Scheduler

/-- Number of outstanding requests. -/
def pending (scheduler : Scheduler) : Nat :=
  scheduler.requests.size + scheduler.codes.size

def isDone (scheduler : Scheduler) : Bool :=
  scheduler.pending = 0 && scheduler.staging.isEmpty

/-- Let a parent, if there is one, wait for one more reference. -/
def await (scheduler : Scheduler) (parent : Option RequestId) : Except Fault Scheduler :=
  match parent with
  | none => .ok scheduler
  | some id => do return { scheduler with requests := ← scheduler.requests.await id }

def link (scheduler : Scheduler) (id : RequestId) (path : Path) (parent : Option RequestId) :
    Except Fault Scheduler := do
  return { scheduler with requests := ← scheduler.requests.link id path parent }

def ask (scheduler : Scheduler) (occurrence : Occurrence) (parents : List RequestId) : Scheduler :=
  { scheduler with requests := scheduler.requests.insert occurrence parents }

/-- A node is complete: it is staged and no longer asked for. -/
def complete (scheduler : Scheduler) (id : RequestId) (request : Request) (bytes : Bytes) :
    Scheduler :=
  { scheduler with
    requests := scheduler.requests.remove id request
    staging := scheduler.staging.insertNode request.occurrence bytes }

/-- Count down what requests wait for, the first of them first. A node that waits for nothing more
is complete, and its parents come next. There are at most `budget` references left to count. -/
def releaseWithin : (budget : Nat) → List RequestId → Scheduler → Except Fault Scheduler
  | _, [], scheduler => .ok scheduler
  | 0, id :: _, _ => .error (.notPending id)
  | budget + 1, id :: ids, scheduler => do
      let request ← scheduler.requests.get id
      match request.pending with
      | 0 => .error (.notPending id)
      | pending + 1 =>
          let request := { request with pending }
          let counted := { scheduler with requests := scheduler.requests.set id request }
          match pending, request.bytes with
          | 0, some bytes =>
              releaseWithin budget (request.parents.reverse ++ ids)
                (counted.complete id request bytes)
          | _, _ => releaseWithin budget ids counted

/-- Drop one reference for each mention of a request, the last mention first. -/
def release (scheduler : Scheduler) (ids : List RequestId) : Except Fault Scheduler :=
  releaseWithin scheduler.requests.totalPending ids.reverse scheduler

/-- Obtain a node that is not at its place yet: from a copy whose bytes are known or asked for, or
by asking for it unless it is stored. -/
def obtainNode (scheduler : Scheduler) (store : Store) (place : Placement)
    (parent : Option RequestId) (occurrence : Occurrence) : Except Fault Scheduler :=
  match scheduler.staging.node? occurrence.digest with
  | some bytes => do place occurrence bytes parent.toList (← scheduler.await parent)
  | none => do
      match ← scheduler.requests.find? occurrence.digest with
      | some id =>
          let waiting ← scheduler.await parent
          let request ← waiting.requests.get id
          match request.bytes with
          | some bytes => place occurrence bytes parent.toList waiting
          | none => waiting.link id occurrence.path parent
      | none =>
          if store.hasNode occurrence then
            return scheduler
          else
            return (← scheduler.await parent).ask occurrence parent.toList

/-- Schedule a node, unless it is the empty root or staged at its place. -/
def scheduleNode (scheduler : Scheduler) (H : Hash) (store : Store) (place : Placement)
    (parent : Option RequestId) (occurrence : Occurrence) : Except Fault Scheduler :=
  if occurrence.digest = emptyRoot H then
    .ok scheduler
  else do
    let responsible ← scheduler.requests.responsible? occurrence.path
    match responsible.filter fun (_, request) => request.occurrence.digest = occurrence.digest with
    | some (id, _) => (← scheduler.await parent).link id occurrence.path parent
    | none =>
        if scheduler.staging.digestAt? occurrence.path = some occurrence.digest then
          return scheduler
        else
          scheduler.obtainNode store place parent occurrence

/-- Schedule code that a place refers to, unless it is staged or stored. -/
def scheduleCode (scheduler : Scheduler) (store : Store) (parent : Option RequestId) (path : Path)
    (digest : Digest) : Except Fault Scheduler :=
  if scheduler.staging.hasCode digest || store.hasCode digest then
    .ok scheduler
  else do
    let waiting ← scheduler.await parent
    return { waiting with codes := waiting.codes.insert digest path parent }

/-- Schedule everything that a request refers to, and stage the request if nothing of it is
missing. It waits for itself meanwhile so that it is not staged too early. -/
def resolve (scheduler : Scheduler) (H : Hash) (store : Store) (place : Placement)
    (id : RequestId) (path : Path) (references : References) : Except Fault Scheduler := do
  let held ← scheduler.await (some id)
  let nodesScheduled ← references.nodes.foldlM
    (fun scheduler node => scheduler.scheduleNode H store place (some id) node) held
  let codesScheduled ← references.codes.foldlM
    (fun scheduler code => scheduler.scheduleCode store (some id) path code) nodesScheduled
  codesScheduled.release [id]

/-- Put a node at a place, and schedule what it refers to there. A node that cannot be decoded at
the place is asked for again, so that its answer is refused. At most `height` nodes whose bytes
are known are below one another. -/
def placeWithin (H : Hash) (store : Store) : (height : Nat) → Placement
  | 0, occurrence, _, _, _ => .error (.endless occurrence)
  | height + 1, occurrence, bytes, parents, scheduler =>
      match scheduler.schema.references H occurrence.path bytes with
      | .error _ => .ok (scheduler.ask occurrence parents)
      | .ok references =>
          let (id, requests) := scheduler.requests.insertFetched occurrence bytes parents
          { scheduler with requests }.resolve H store (placeWithin H store height) id
            occurrence.path references

/-- References among nodes whose bytes are known, one of them just delivered, end within this many
nodes: a node is met below itself only if it holds an account, which it does at one depth and not
at the next. -/
def maxHeight (scheduler : Scheduler) : Nat :=
  3 * (scheduler.requests.size + scheduler.staging.byDigest.size + 1)

def placement (scheduler : Scheduler) (H : Hash) (store : Store) : Placement :=
  placeWithin H store scheduler.maxHeight

/-- A scheduler with nothing to do. -/
def idle (schema : Schema) : Scheduler where
  schema := schema
  requests := .empty
  codes := .empty
  staging := .empty

/-- Schedule a node that no request waits for. -/
def scheduleRoot (scheduler : Scheduler) (H : Hash) (store : Store) (occurrence : Occurrence) :
    Except Fault Scheduler :=
  scheduler.scheduleNode H store (scheduler.placement H store) none occurrence

/-- A scheduler that synchronizes the trie with the given root. -/
def ofRoot (H : Hash) (store : Store) (schema : Schema) (root : Digest) : Except Fault Scheduler :=
  (idle schema).scheduleRoot H store ⟨.root, root⟩

/-- Schedule one more trie, unless another node is scheduled or staged at its place. -/
def addSubTrie (scheduler : Scheduler) (H : Hash) (store : Store) (occurrence : Occurrence) :
    Except Failure Scheduler := do
  let responsible ← (scheduler.requests.responsible? occurrence.path).mapError .fault
  let scheduled := responsible.map fun (_, request) => request.occurrence.digest
  let staged := scheduler.staging.digestAt? occurrence.path
  if scheduled.all (· = occurrence.digest) && staged.all (· = occurrence.digest) then
    (scheduler.scheduleRoot H store occurrence).mapError .fault
  else
    throw (.rejected (.pathConflict occurrence.path))

/-- Schedule code that a place refers to. -/
def addCode (scheduler : Scheduler) (store : Store) (digest : Digest) (path : Path) :
    Except Fault Scheduler :=
  scheduler.scheduleCode store none path digest

/-- Hand out requests that were not handed out yet: of either kind the given number, or all if it
is zero. -/
def missing (scheduler : Scheduler) (max : Nat) : Except Fault (Missing × Scheduler) := do
  let (nodes, requests) ← scheduler.requests.handOut max
  let (codes, codeTable) := scheduler.codes.handOut max
  return (⟨nodes, codes⟩, { scheduler with requests, codes := codeTable })

/-- Record the bytes of the node of a request, schedule what it refers to, and put a copy at every
other place that waits for it. -/
def deliver (scheduler : Scheduler) (H : Hash) (store : Store) (id : RequestId)
    (occurrence : Occurrence) (bytes : Bytes) (references : References) :
    Except Fault Scheduler := do
  let place := scheduler.placement H store
  let (aliases, requests) ← scheduler.requests.fetched id bytes
  let resolved ← { scheduler with requests }.resolve H store place id occurrence.path references
  aliases.foldlM
    (fun scheduler other => place ⟨other.path, occurrence.digest⟩ bytes other.parents scheduler)
    resolved

/-- Take the bytes of the node that was asked for at a place. -/
def processNode (scheduler : Scheduler) (H : Hash) (store : Store) (path : Path) (bytes : Bytes) :
    Except Failure Scheduler := do
  match ← (scheduler.requests.inFlightAt? path).mapError .fault with
  | none => throw (.rejected (.notRequested path))
  | some (id, request) =>
      let expected := request.occurrence.digest
      if H bytes = expected then
        match scheduler.schema.references H path bytes with
        | .error cause => throw (.rejected (.undecodable path cause))
        | .ok references =>
            (scheduler.deliver H store id request.occurrence bytes references).mapError .fault
      else
        throw (.rejected (.nodeMismatch path expected (H bytes)))

/-- Take code that was asked for. -/
def processCode (scheduler : Scheduler) (H : Hash) (digest : Digest) (bytes : Bytes) :
    Except Failure Scheduler :=
  if scheduler.codes.inFlight.contains digest then
    if H bytes = digest then
      let (parents, codes) := scheduler.codes.remove digest
      let staged :=
        { scheduler with codes, staging := scheduler.staging.insertCode digest bytes }
      (staged.release parents).mapError .fault
    else
      .error (.rejected (.codeMismatch digest (H bytes)))
  else
    .error (.rejected (.codeNotRequested digest))

/-- Write all that is staged through a batch. If the write is refused, it stays staged and its
puts stay in the batch. -/
def commit (scheduler : Scheduler) (batch : Batch) (store : Store) : Commit :=
  if scheduler.staging.isEmpty then
    { result := .ok 0, scheduler, batch, store }
  else
    let filled := batch.append scheduler.staging.puts
    match store.write filled with
    | .error error => { result := .error error, scheduler, batch := filled, store }
    | .ok written =>
        { result := .ok scheduler.staging.size
          scheduler := { scheduler with staging := .empty }
          batch := .empty
          store := written }

end Scheduler

end TrieSync
