import TrieSync.Store.Batch

namespace TrieSync

/-- Nodes that are complete with all that is below them, and verified code, until they are
written. -/
structure Staging where
  nodes : Std.TreeMap Path (Digest × Bytes)
  /-- The bytes of every digest that has been staged. -/
  byDigest : Std.TreeMap Digest Bytes
  codes : Std.TreeMap Digest Bytes

namespace Staging

def empty : Staging where
  nodes := ∅
  byDigest := ∅
  codes := ∅

def insertNode (staging : Staging) (occurrence : Occurrence) (bytes : Bytes) : Staging :=
  { staging with
    nodes := staging.nodes.insert occurrence.path (occurrence.digest, bytes)
    byDigest := staging.byDigest.insert occurrence.digest bytes }

def insertCode (staging : Staging) (digest : Digest) (bytes : Bytes) : Staging :=
  { staging with codes := staging.codes.insert digest bytes }

def digestAt? (staging : Staging) (path : Path) : Option Digest :=
  staging.nodes[path]?.map Prod.fst

/-- The bytes of a node that is staged at some place. -/
def node? (staging : Staging) (digest : Digest) : Option Bytes :=
  staging.byDigest[digest]?

def hasCode (staging : Staging) (digest : Digest) : Bool :=
  staging.codes.contains digest

def size (staging : Staging) : Nat :=
  staging.nodes.size + staging.codes.size

def isEmpty (staging : Staging) : Bool :=
  staging.size = 0

/-- The writes of all that is staged: the nodes in the order of their places, then the code. -/
def puts (staging : Staging) : List Put :=
  (staging.nodes.toList.map fun (path, digest, bytes) => .node ⟨path, digest⟩ bytes) ++
    staging.codes.toList.map fun (digest, bytes) => .code digest bytes

end Staging

end TrieSync
