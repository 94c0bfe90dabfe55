import Std.Data.TreeMap
import Std.Data.TreeSet
import TrieSync.Sync.Request

/-!
The live requests for nodes, and the indices that find them by digest and by place. A digest is
asked for by one request, and the other places that wait for it become aliases of that request.
-/

namespace TrieSync

structure RequestTable where
  slots : Array (Option Request)
  /-- The empty slots, the next one to be used first. -/
  free : List RequestId
  /-- The live requests for each digest, the oldest first. -/
  byDigest : Std.TreeMap Digest (List RequestId)
  /-- The request that is responsible for each place. -/
  byPath : Std.TreeMap Path RequestId
  /-- The requests that are still to be handed out. -/
  queue : Std.TreeMap Path RequestId Path.deepestFirst
  /-- The requests that were handed out and not yet answered. -/
  inFlight : Std.TreeSet RequestId

namespace RequestTable

def empty : RequestTable where
  slots := #[]
  free := []
  byDigest := ∅
  byPath := ∅
  queue := ∅
  inFlight := ∅

/-- Number of live requests. -/
def size (table : RequestTable) : Nat :=
  table.slots.size - table.free.length

def live? (table : RequestTable) (id : RequestId) : Option Request :=
  table.slots[id]?.join

def get (table : RequestTable) (id : RequestId) : Except Fault Request :=
  match table.live? id with
  | none => .error (.notLive id)
  | some request => .ok request

def set (table : RequestTable) (id : RequestId) (request : Request) : RequestTable :=
  { table with slots := table.slots.setIfInBounds id (some request) }

theorem live?_set (table : RequestTable) {id : RequestId} (request : Request) (other : RequestId)
    (bound : id < table.slots.size) :
    (table.set id request).live? other = if id = other then some request else table.live? other := by
  simp only [live?, set, Array.getElem?_setIfInBounds, bound]
  split <;> simp

theorem get_eq_ok_iff {table : RequestTable} {id : RequestId} {request : Request} :
    table.get id = .ok request ↔ table.live? id = some request := by
  unfold get
  split <;> simp_all

/-- Number of references that the live requests wait for. -/
def totalPending (table : RequestTable) : Nat :=
  (table.slots.toList.map fun slot => (slot.map Request.pending).getD 0).foldr (· + ·) 0

/-- Take a slot for a request, and let the indices lead to it. -/
def allocate (table : RequestTable) (request : Request) : RequestId × RequestTable :=
  let digest := request.occurrence.digest
  let index (id : RequestId) (table : RequestTable) : RequestTable :=
    { table with
      byDigest := table.byDigest.insert digest (table.byDigest.getD digest [] ++ [id])
      byPath := table.byPath.insert request.occurrence.path id }
  match table.free with
  | [] =>
      let id := table.slots.size
      (id, index id { table with slots := table.slots.push (some request) })
  | id :: free => (id, index id { table.set id request with free })

/-- Ask for a node. -/
def insert (table : RequestTable) (occurrence : Occurrence) (parents : List RequestId) :
    RequestTable :=
  let (id, table) := table.allocate (.waiting occurrence parents none)
  { table with queue := table.queue.insert occurrence.path id }

/-- Track a node whose bytes are known, and which is therefore never asked for. -/
def insertFetched (table : RequestTable) (occurrence : Occurrence) (bytes : Bytes)
    (parents : List RequestId) : RequestId × RequestTable :=
  table.allocate (.waiting occurrence parents (some bytes))

/-- Let a request wait for one more reference. -/
def await (table : RequestTable) (id : RequestId) : Except Fault RequestTable := do
  let request ← table.get id
  return table.set id { request with pending := request.pending + 1 }

/-- Let a parent wait for a request at a place, which the request becomes responsible for. -/
def link (table : RequestTable) (id : RequestId) (path : Path) (parent : Option RequestId) :
    Except Fault RequestTable := do
  let request ← table.get id
  let linked := table.set id (request.link path parent)
  if path ∈ request.paths then
    return linked
  else
    return { linked with byPath := linked.byPath.insert path id }

/-- The first request of a list whose bytes are known. -/
def firstFetched (table : RequestTable) : List RequestId → Except Fault (Option RequestId)
  | [] => .ok none
  | id :: ids => do
      let request ← table.get id
      if request.bytes.isSome then
        return some id
      else
        table.firstFetched ids

/-- A live request for a digest, if possible one whose bytes are known. -/
def find? (table : RequestTable) (digest : Digest) : Except Fault (Option RequestId) := do
  let ids := table.byDigest.getD digest []
  return (← table.firstFetched ids).or ids.head?

/-- The request that is responsible for a place. -/
def responsible? (table : RequestTable) (path : Path) :
    Except Fault (Option (RequestId × Request)) :=
  match table.byPath[path]? with
  | none => .ok none
  | some id => do return some (id, ← table.get id)

/-- Hand out queued requests, the given number of them or all if it is zero. -/
def handOut (table : RequestTable) (max : Nat) :
    Except Fault (List Occurrence × RequestTable) := do
  let queued := table.queue.toList
  let chosen := if max = 0 then queued else queued.take max
  let occurrences ← chosen.mapM fun (path, id) => do
    let request ← table.get id
    return (⟨path, request.occurrence.digest⟩ : Occurrence)
  return (occurrences,
    { table with
      queue := chosen.foldl (fun queue (path, _) => queue.erase path) table.queue
      inFlight := chosen.foldl (fun inFlight (_, id) => inFlight.insert id) table.inFlight })

/-- The request that was handed out with a place as its own. -/
def inFlightAt? (table : RequestTable) (path : Path) :
    Except Fault (Option (RequestId × Request)) :=
  match table.byPath[path]? with
  | none => .ok none
  | some id =>
      if table.inFlight.contains id then do
        let request ← table.get id
        return if request.occurrence.path = path then some (id, request) else none
      else
        .ok none

/-- Forget that a request is responsible for places, unless another has replaced it there. -/
def unlink (table : RequestTable) (id : RequestId) (paths : List Path) : RequestTable :=
  { table with
    byPath := paths.foldl
      (fun byPath path => if byPath[path]? = some id then byPath.erase path else byPath)
      table.byPath }

/-- Record the bytes of a request, which has no more aliases from then on. -/
def fetched (table : RequestTable) (id : RequestId) (bytes : Bytes) :
    Except Fault (List Alias × RequestTable) := do
  let request ← table.get id
  let answered := table.set id { request with bytes := some bytes, aliases := [] }
  return (request.aliases,
    { answered.unlink id (request.aliases.map Alias.path) with
      inFlight := table.inFlight.erase id })

/-- Drop a live request. -/
def remove (table : RequestTable) (id : RequestId) (request : Request) : RequestTable :=
  let digest := request.occurrence.digest
  let others := (table.byDigest.getD digest []).filter (· ≠ id)
  { table.unlink id request.paths with
    slots := table.slots.setIfInBounds id none
    free := id :: table.free
    byDigest :=
      if others = [] then table.byDigest.erase digest else table.byDigest.insert digest others
    queue := table.queue.erase request.occurrence.path
    inFlight := table.inFlight.erase id }

end RequestTable

end TrieSync
