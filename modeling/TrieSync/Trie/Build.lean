import Std.Data.TreeMap
import TrieSync.Trie

/-!
The recursion that builds a trie from the sorted entries of a map. Keys are not cut on the way down:
the nibbles that lead to a node are counted off in each key below it. Nothing is built if a nibble
past the end of a key is asked for, or if a node has no encoding.
-/

namespace TrieSync

namespace Trie

/-- A node on top of the nodes below it, if it has an encoding. -/
def top? (H : Hash) (place : Nibbles) (node : Node) (below : List PlacedNode) : Option Trie :=
  if node.Encodable then some (top H place node below) else none

/-- The entries in front whose keys have the given nibble at a depth, and the other entries. -/
def run? (depth : Nat) (nibble : Nibble) :
    List (Nibbles × Bytes) → Option (List (Nibbles × Bytes) × List (Nibbles × Bytes))
  | [] => some ([], [])
  | (key, value) :: entries => do
      if (← key[depth]?) = nibble then
        let (run, rest) ← run? depth nibble entries
        return ((key, value) :: run, rest)
      else
        return ([], (key, value) :: entries)

/-- Build what is below a branch, from one run of entries after the other. There are at most `count`
entries. -/
def runs? (build : List (Nibbles × Bytes) → Nibbles → Option Trie) (place : Nibbles) :
    (count : Nat) → List (Nibbles × Bytes) → Children → List PlacedNode →
      Option (Children × List PlacedNode)
  | _, [], children, below => some (children, below)
  | 0, _ :: _, _, _ => none
  | count + 1, (key, value) :: entries, children, below => do
      let nibble ← key[place.length]?
      let (run, rest) ← run? place.length nibble ((key, value) :: entries)
      let part ← build run (place ++ [nibble])
      runs? build place count rest (children.set nibble (some part.root)) (below ++ part.nodes)

/-- Build the trie at a place from sorted entries whose keys all lead there. Since entries are
sorted, the first and the last key tell what all keys share. -/
def buildWithin? (H : Hash) :
    (height : Nat) → List (Nibbles × Bytes) → (place : Nibbles) → Option Trie
  | 0, _, _ => none
  | _ + 1, [(key, value)], place => do
      top? H place (.leaf (← key.slice? place.length key.length) value) []
  | height + 1, entries, place => do
      let (first, _) ← entries.head?
      let (last, _) ← entries.getLast?
      let shared := (Nibbles.commonPrefix (← first.slice? place.length first.length)
        (← last.slice? place.length last.length)).length
      if 0 < shared then
        let key ← first.slice? place.length (place.length + shared)
        let part ← buildWithin? H height entries (place ++ key)
        top? H place (.extension key part.root) part.nodes
      else
        let (children, below) ←
          runs? (buildWithin? H height) place entries.length entries .absent []
        top? H place (.branch children none) below

/-- Build the trie of a map. -/
def build? (H : Hash) (entries : Std.TreeMap Digest Bytes) : Option Trie :=
  if entries.isEmpty then
    some (empty H)
  else
    buildWithin? H (Digest.keyLength + 1)
      (entries.toList.map fun (key, value) => (key.nibbles, value)) []

end Trie

end TrieSync
