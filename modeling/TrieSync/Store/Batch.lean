import TrieSync.Store
import TrieSync.Trie

namespace TrieSync

inductive Put
  | node (occurrence : Occurrence) (bytes : Bytes)
  | code (digest : Digest) (bytes : Bytes)
deriving DecidableEq

/-- Writes in the order in which they were asked for. -/
structure Batch where
  puts : List Put
deriving DecidableEq

inductive WriteError
  | rejected
deriving DecidableEq

def WriteError.message : WriteError → String
  | rejected => "write rejected"

namespace Batch

def empty : Batch where
  puts := []

def append (batch : Batch) (puts : List Put) : Batch where
  puts := batch.puts ++ puts

def size (batch : Batch) : Nat :=
  batch.puts.length

def isEmpty (batch : Batch) : Bool :=
  batch.puts.isEmpty

end Batch

namespace Store

def put (store : Store) : Put → Store
  | .node occurrence bytes => store.insertNode occurrence bytes
  | .code digest bytes => store.insertCode digest bytes

def write (store : Store) (batch : Batch) : Except WriteError Store :=
  if store.rejecting then
    .error .rejected
  else
    .ok (batch.puts.foldl put store)

end Store

/-- The writes that put a trie at the places of its owner. -/
def Trie.puts (trie : Trie) (H : Hash) (owner : Owner) : List Put :=
  trie.nodes.map fun placed =>
    .node ⟨⟨owner, placed.place⟩, placed.node.digest H⟩ placed.node.encode

end TrieSync
