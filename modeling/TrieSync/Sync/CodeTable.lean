import Std.Data.TreeMap
import Std.Data.TreeSet
import TrieSync.Sync.Request

namespace TrieSync

structure CodeRequest where
  /-- The place that first referred to the code. -/
  path : Path
  parents : List RequestId
deriving DecidableEq

structure CodeTable where
  requests : Std.TreeMap Digest CodeRequest
  /-- The requests that are still to be handed out, with the places that they come from. -/
  queue : Std.TreeSet Occurrence Occurrence.deepestFirst
  /-- The requests that were handed out and not yet answered. -/
  inFlight : Std.TreeSet Digest

namespace CodeTable

def empty : CodeTable where
  requests := ∅
  queue := ∅
  inFlight := ∅

/-- Number of live requests. -/
def size (table : CodeTable) : Nat :=
  table.requests.size

/-- Ask for code, or let one more parent wait for it if it is asked for already. -/
def insert (table : CodeTable) (digest : Digest) (path : Path) (parent : Option RequestId) :
    CodeTable :=
  match table.requests[digest]? with
  | some request =>
      let request := { request with parents := request.parents ++ parent.toList }
      { table with requests := table.requests.insert digest request }
  | none =>
      { table with
        requests := table.requests.insert digest ⟨path, parent.toList⟩
        queue := table.queue.insert ⟨path, digest⟩ }

/-- Hand out queued requests, the given number of them or all if it is zero. -/
def handOut (table : CodeTable) (max : Nat) : List Digest × CodeTable :=
  let queued := table.queue.toList
  let chosen := if max = 0 then queued else queued.take max
  let digests := chosen.map Occurrence.digest
  (digests,
    { table with
      queue := chosen.foldl (fun queue entry => queue.erase entry) table.queue
      inFlight := digests.foldl (fun inFlight digest => inFlight.insert digest) table.inFlight })

/-- Drop a request, and return those that wait for it. -/
def remove (table : CodeTable) (digest : Digest) : List RequestId × CodeTable :=
  let table := { table with inFlight := table.inFlight.erase digest }
  match table.requests[digest]? with
  | none => ([], table)
  | some request =>
      (request.parents,
        { table with
          requests := table.requests.erase digest
          queue := table.queue.erase ⟨request.path, digest⟩ })

end CodeTable

end TrieSync
