import Std.Data.TreeMap
import TrieSync.Path.Order

/-!
Nodes and code that are kept. A store keyed by digest ignores the place of a node, and one keyed
by path holds a node only at the places it was written at. Code is found by its digest alone.
-/

namespace TrieSync

inductive Keying
  | byDigest
  | byPath
deriving DecidableEq

structure Store where
  keying : Keying
  nodes : Std.TreeMap Occurrence Bytes
  codes : Std.TreeMap Digest Bytes
  /-- Whether batches are refused. -/
  rejecting : Bool

namespace Store

def empty (keying : Keying) : Store where
  keying := keying
  nodes := ∅
  codes := ∅
  rejecting := false

/-- The key that a node is held under. -/
def key (store : Store) (occurrence : Occurrence) : Occurrence :=
  match store.keying with
  | .byDigest => ⟨.root, occurrence.digest⟩
  | .byPath => occurrence

def node? (store : Store) (occurrence : Occurrence) : Option Bytes :=
  store.nodes[store.key occurrence]?

def hasNode (store : Store) (occurrence : Occurrence) : Bool :=
  store.nodes.contains (store.key occurrence)

def code? (store : Store) (digest : Digest) : Option Bytes :=
  store.codes[digest]?

def hasCode (store : Store) (digest : Digest) : Bool :=
  store.codes.contains digest

/-- Hold bytes for a node, whether or not they are those of the node. -/
def insertNode (store : Store) (occurrence : Occurrence) (bytes : Bytes) : Store :=
  { store with nodes := store.nodes.insert (store.key occurrence) bytes }

def insertCode (store : Store) (digest : Digest) (bytes : Bytes) : Store :=
  { store with codes := store.codes.insert digest bytes }

/-- What is held of a node, at any place. -/
def copies (store : Store) (digest : Digest) : List (Occurrence × Bytes) :=
  store.nodes.toList.filter fun (occurrence, _) => occurrence.digest = digest

/-- Remove a node from all places, and return what was held at the first of them. -/
def removeNode (store : Store) (digest : Digest) : Option Bytes × Store :=
  let copies := store.copies digest
  (copies.head?.map Prod.snd,
    { store with
      nodes := copies.foldl (fun nodes (occurrence, _) => nodes.erase occurrence) store.nodes })

/-- The keys that nodes are held under, in order. -/
def occurrences (store : Store) : List Occurrence :=
  store.nodes.keys

/-- The digests of the nodes, in order and once for each place. -/
def digests (store : Store) : List Digest :=
  (store.occurrences.map Occurrence.digest).mergeSort fun left right => (compare left right).isLE

@[simp] theorem key_insertNode (store : Store) (occurrence other : Occurrence) (bytes : Bytes) :
    (store.insertNode occurrence bytes).key other = store.key other := rfl

theorem node?_insertNode (store : Store) (occurrence other : Occurrence) (bytes : Bytes) :
    (store.insertNode occurrence bytes).node? other =
      if store.key occurrence = store.key other then some bytes else store.node? other := by
  rw [node?, key_insertNode, insertNode, Std.TreeMap.getElem?_insert]
  simp only [Std.LawfulEqOrd.compare_eq_iff_eq]
  rfl

theorem hasNode_eq_isSome_node? (store : Store) (occurrence : Occurrence) :
    store.hasNode occurrence = (store.node? occurrence).isSome :=
  Std.TreeMap.contains_eq_isSome_getElem?

theorem hasCode_eq_isSome_code? (store : Store) (digest : Digest) :
    store.hasCode digest = (store.code? digest).isSome :=
  Std.TreeMap.contains_eq_isSome_getElem?

end Store

end TrieSync
