import TrieSync.Sync.Scheduler

namespace TrieSync

structure Exchange where
  scheduler : Scheduler
  nodes : List Occurrence
  codes : List Digest

inductive DeliveryError
  | nothingOutstanding
  | nodeNotInSource (path : Path)
  | codeNotInSource (digest : Digest)
  | rejected (rejection : Rejection)
deriving DecidableEq

namespace DeliveryError

def message : DeliveryError → String
  | nothingOutstanding => ""
  | nodeNotInSource path => path.display
  | codeNotInSource digest => digest.hex
  | rejected rejection => rejection.message

end DeliveryError

/-- Which of the outstanding requests is answered next. -/
inductive DeliveryOrder
  | oldestFirst
  | newestFirst
deriving DecidableEq

/-- Where in a list of outstanding requests the next one to answer is. -/
def DeliveryOrder.index {α : Type} (order : DeliveryOrder) (items : List α) : Nat :=
  match order with
  | .oldestFirst => 0
  | .newestFirst => items.length - 1

/-- An attempt to answer a request, and what is outstanding after it. -/
structure Delivery where
  result : Except DeliveryError Unit
  exchange : Exchange

/-- Requests that were handed out, answers to some of the outstanding ones, and what went wrong
with those. -/
structure Round where
  missing : Missing
  errors : List DeliveryError
  exchange : Exchange

namespace Exchange

variable {α : Type}

def start (scheduler : Scheduler) : Exchange where
  scheduler := scheduler
  nodes := []
  codes := []

def request (exchange : Exchange) (max : Nat) : Except Fault (Missing × Exchange) := do
  let (missing, scheduler) ← exchange.scheduler.missing max
  return (missing,
    { scheduler
      nodes := exchange.nodes ++ missing.nodes
      codes := exchange.codes ++ missing.codes })

/-- The item at an index, counted around the end, and the others. -/
def takeAround (items : List α) (index : Nat) : Option (α × List α) :=
  items[index % items.length]?.map fun item => (item, items.eraseIdx (index % items.length))

private def answered (exchange : Exchange) : Except Failure Scheduler → Except Fault Delivery
  | .ok scheduler => .ok ⟨.ok (), { exchange with scheduler }⟩
  | .error (.rejected rejection) => .ok ⟨.error (.rejected rejection), exchange⟩
  | .error (.fault fault) => .error fault

/-- Answer an outstanding request for a node from a source. -/
def deliverNode (exchange : Exchange) (H : Hash) (store source : Store) (index : Nat) :
    Except Fault Delivery :=
  match takeAround exchange.nodes index with
  | none => .ok ⟨.error .nothingOutstanding, exchange⟩
  | some (occurrence, nodes) =>
      let left := { exchange with nodes }
      match source.node? occurrence with
      | none => .ok ⟨.error (.nodeNotInSource occurrence.path), left⟩
      | some bytes => left.answered (left.scheduler.processNode H store occurrence.path bytes)

/-- Answer an outstanding request for code from a source. -/
def deliverCode (exchange : Exchange) (H : Hash) (source : Store) (index : Nat) :
    Except Fault Delivery :=
  match takeAround exchange.codes index with
  | none => .ok ⟨.error .nothingOutstanding, exchange⟩
  | some (digest, codes) =>
      let left := { exchange with codes }
      match source.code? digest with
      | none => .ok ⟨.error (.codeNotInSource digest), left⟩
      | some bytes => left.answered (left.scheduler.processCode H digest bytes)

/-- Repeat an answer, and collect what goes wrong. -/
def deliverMany (deliver : Exchange → Except Fault Delivery) :
    (count : Nat) → Exchange → Except Fault (List DeliveryError × Exchange)
  | 0, exchange => .ok ([], exchange)
  | count + 1, exchange => do
      let delivery ← deliver exchange
      let (errors, exchange) ← deliverMany deliver count delivery.exchange
      match delivery.result with
      | .ok _ => return (errors, exchange)
      | .error error => return (error :: errors, exchange)

/-- How many of some outstanding requests are answered in a round. -/
def share (divisor outstanding : Nat) : Nat :=
  min outstanding (outstanding / divisor + 1)

/-- Hand out more requests, then answer a part of those that are outstanding, the nodes first.
There is no round if nothing is outstanding. -/
def round (exchange : Exchange) (H : Hash) (store source : Store) (max divisor : Nat)
    (order : DeliveryOrder) : Except Fault (Option Round) := do
  let (missing, asked) ← exchange.request max
  if asked.nodes.isEmpty && asked.codes.isEmpty then
    return none
  else
    let (nodeErrors, nodesDone) ← deliverMany
      (fun exchange => exchange.deliverNode H store source (order.index exchange.nodes))
      (share divisor asked.nodes.length) asked
    let (codeErrors, codesDone) ← deliverMany
      (fun exchange => exchange.deliverCode H source (order.index exchange.codes))
      (share divisor asked.codes.length) nodesDone
    return some ⟨missing, nodeErrors ++ codeErrors, codesDone⟩

end Exchange

end TrieSync
