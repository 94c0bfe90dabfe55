import TrieSync.Node.Codec
import TrieSync.Store

namespace TrieSync

structure Header where
  number : UInt64
  digest : Digest
  parent : Digest
  /-- Root of the state after the block. -/
  stateRoot : Digest
  gasUsed : Option UInt64
deriving DecidableEq

/-- The headers that are known, by digest and number. -/
structure Chain where
  header? : Digest → UInt64 → Option Header
  number_eq_of_header? : ∀ digest number header,
    header? digest number = some header → header.number = number

/-- The first header of a list that has a given digest and number. -/
def Chain.ofList (headers : List Header) : Chain where
  header? digest number :=
    headers.find? fun header => header.digest = digest ∧ header.number = number
  number_eq_of_header? digest number header found := by
    have := List.find?_some found
    simp_all

/-- How far back to search. -/
inductive SearchDepth
  | target
  | unbounded
  /-- Until the blocks searched have used more gas than the limit. -/
  | gas (limit : UInt64)
deriving DecidableEq

inductive AncestorError
  | unavailable (number : UInt64)
  | missingGas (number : UInt64)
  | depthExceeded (target limit : UInt64)
  | beyondGenesis (target genesis : UInt64)
  | missingParent (number : UInt64) (digest : Digest)
deriving DecidableEq

namespace AncestorError

def message : AncestorError → String
  | unavailable number => "state of block " ++ toString number.toNat ++ " is unavailable"
  | missingGas number => "missing gas used by block " ++ toString number.toNat
  | depthExceeded target limit =>
      "gas limit of " ++ toString limit.toNat ++ " exceeded searching for state of block " ++
        toString target.toNat
  | beyondGenesis target genesis =>
      "moved beyond genesis " ++ toString genesis.toNat ++ " searching for state of block " ++
        toString target.toNat
  | missingParent number digest =>
      "missing parent of block " ++ toString number.toNat ++ " (" ++ digest.hex ++ ")"

/-- The search ran out of room, and the chain is not at fault. -/
def isBoundExceeded : AncestorError → Bool
  | depthExceeded _ _ => true
  | beyondGenesis _ _ => true
  | _ => false

end AncestorError

namespace Store

/-- The state after a block is empty or its root node is held. -/
def hasState (store : Store) (H : Hash) (header : Header) : Bool :=
  header.stateRoot = emptyRoot H || store.hasNode ⟨.root, header.stateRoot⟩

end Store

namespace SearchDepth

/-- The sum, or the largest number if that is less. -/
def saturatingAdd (left right : UInt64) : UInt64 :=
  .ofNat (min (left.toNat + right.toNat) (UInt64.size - 1))

/-- The gas used up to a block without state, if the search may go on past that block. -/
def spend (depth : SearchDepth) (target spent : UInt64) (header : Header) :
    Except AncestorError UInt64 :=
  match depth with
  | .target => .error (.unavailable header.number)
  | .unbounded => .ok spent
  | .gas limit =>
      match header.gasUsed with
      | none => .error (.missingGas header.number)
      | some used =>
          let spent := saturatingAdd spent used
          if limit < spent then .error (.depthExceeded target limit) else .ok spent

end SearchDepth

namespace Chain

/-- Search from a header on, which is found by going back from the target. -/
def search (chain : Chain) (H : Hash) (store : Store) (genesis : UInt64) (depth : SearchDepth)
    (target spent : UInt64) (header : Header) : Except AncestorError Header :=
  if store.hasState H header then
    .ok header
  else
    match depth.spend target spent header with
    | .error error => .error error
    | .ok spent =>
        if _ : header.number ≤ genesis then
          .error (.beyondGenesis target genesis)
        else
          match _ : chain.header? header.parent (header.number - 1) with
          | none => .error (.missingParent header.number header.digest)
          | some parent => chain.search H store genesis depth target spent parent
termination_by header.number.toNat
decreasing_by
  have number_eq := chain.number_eq_of_header? _ _ _ ‹_ = some parent›
  have later := ‹¬header.number ≤ genesis›
  rw [UInt64.le_iff_toNat_le] at later
  rw [number_eq, UInt64.toNat_sub_of_le]
  · simp only [UInt64.toNat_one]
    omega
  · rw [UInt64.le_iff_toNat_le, UInt64.toNat_one]
    omega

/-- The closest ancestor of a block, possibly the block itself, whose state is held. -/
def lastAvailable (chain : Chain) (H : Hash) (store : Store) (target : Header)
    (genesis : UInt64) (depth : SearchDepth) : Except AncestorError Header :=
  chain.search H store genesis depth target.number 0 target

end Chain

end TrieSync
