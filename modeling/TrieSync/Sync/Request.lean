import TrieSync.Path.Order

namespace TrieSync

/-- Identifies a request for as long as it is live. -/
abbrev RequestId := Nat

/-- Another place that waits for the node of a request. -/
structure Alias where
  path : Path
  parents : List RequestId
deriving DecidableEq

/-- A node that is to be synchronized at a place and is not yet staged there. -/
structure Request where
  occurrence : Occurrence
  aliases : List Alias
  /-- The requests that wait for this one, each once for every reference that it makes. -/
  parents : List RequestId
  /-- Number of references that this request waits for. -/
  pending : Nat
  /-- The bytes of the node once they are known. -/
  bytes : Option Bytes
deriving DecidableEq

namespace Request

def waiting (occurrence : Occurrence) (parents : List RequestId) (bytes : Option Bytes) :
    Request where
  occurrence := occurrence
  aliases := []
  parents := parents
  pending := 0
  bytes := bytes

/-- The places that a request is responsible for. -/
def paths (request : Request) : List Path :=
  request.occurrence.path :: request.aliases.map Alias.path

/-- Let a parent wait at a place that is not the request's own. -/
def linkAlias (path : Path) (parent : Option RequestId) : List Alias → List Alias
  | [] => [⟨path, parent.toList⟩]
  | first :: rest =>
      if first.path = path then
        { first with parents := first.parents ++ parent.toList } :: rest
      else
        first :: linkAlias path parent rest

/-- Let a parent wait for a request at a place. -/
def link (request : Request) (path : Path) (parent : Option RequestId) : Request :=
  if path = request.occurrence.path then
    { request with parents := request.parents ++ parent.toList }
  else
    { request with aliases := linkAlias path parent request.aliases }

end Request

/-- A broken invariant, which ends the work of a scheduler. -/
inductive Fault
  | notLive (id : RequestId)
  | notPending (id : RequestId)
  /-- The bytes that are known refer on without end. -/
  | endless (occurrence : Occurrence)
deriving DecidableEq

end TrieSync
