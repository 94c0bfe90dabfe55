import Std.Data.TreeMap
import TrieSync.Node.Codec

/-!
The trie of a finite map. Its nodes are listed from the bottom up: what is below a node comes
before it, in the order of the nibbles that lead there.
-/

namespace TrieSync

/-- A node and its place within its trie. -/
structure PlacedNode where
  place : Nibbles
  node : Node
deriving DecidableEq

/-- The nodes of a trie, of which the last is the root node unless there are none. -/
structure Trie where
  root : Digest
  nodes : List PlacedNode
deriving DecidableEq

namespace Trie

/-- The trie without entries. -/
def empty (H : Hash) : Trie where
  root := emptyRoot H
  nodes := []

/-- A node on top of the nodes below it. -/
def top (H : Hash) (place : Nibbles) (node : Node) (below : List PlacedNode) : Trie where
  root := node.digest H
  nodes := below ++ [⟨place, node⟩]

/-- The longest run of nibbles that all keys begin with. -/
def sharedPrefix : List (Nibbles × Bytes) → Nibbles
  | [] => []
  | (key, _) :: entries =>
      entries.foldl (fun shared entry => Nibbles.commonPrefix shared entry.1) key

/-- The entries whose keys begin with a nibble, without that nibble. -/
def under (nibble : Nibble) (entries : List (Nibbles × Bytes)) : List (Nibbles × Bytes) :=
  entries.filterMap fun (key, value) =>
    match key with
    | [] => none
    | first :: rest => if first = nibble then some (rest, value) else none

/-- The trie at a place, given what is left there of the keys below it. The keys are different and
of one length, which is at most `height`. -/
def ofSuffixes (H : Hash) : (height : Nat) → (place : Nibbles) → List (Nibbles × Bytes) → Trie
  | _, _, [] => empty H
  | _, place, [(key, value)] => top H place (.leaf key value) []
  | 0, _, _ => empty H
  | height + 1, place, entries =>
      match sharedPrefix entries with
      | [] =>
          let parts : Vector (Option Trie) 16 := .ofFn fun nibble =>
            match under nibble entries with
            | [] => none
            | part => some (ofSuffixes H height (place ++ [nibble]) part)
          let below := parts.toList.flatMap fun part => (part.map nodes).getD []
          top H place (.branch (parts.map (Option.map root)) none) below
      | shared =>
          let part := ofSuffixes H height (place ++ shared)
            (entries.map fun (key, value) => (key.drop shared.length, value))
          top H place (.extension shared part.root) part.nodes

/-- The trie of a map, whose keys are digests. -/
def ofMap (H : Hash) (entries : Std.TreeMap Digest Bytes) : Trie :=
  ofSuffixes H Digest.keyLength [] (entries.toList.map fun (key, value) => (key.nibbles, value))

/-- The trie of a map, if all its nodes have an encoding. -/
def ofMap? (H : Hash) (entries : Std.TreeMap Digest Bytes) : Option Trie :=
  let trie := ofMap H entries
  if ∀ placed ∈ trie.nodes, placed.node.Encodable then some trie else none

end Trie

end TrieSync
