import TrieSync.References
import TrieSync.Store

namespace TrieSync

/-- What is wrong with a trie that a store holds. -/
inductive ReadError
  | missingNode (occurrence : Occurrence)
  | corruptNode (occurrence : Occurrence)
  | undecodable (path : Path) (cause : ReferenceError)
  | missingCode (digest : Digest)
  | corruptCode (digest : Digest)
  /-- The references lead on without end, from a node back to itself. -/
  | endless (occurrence : Occurrence)
deriving DecidableEq

namespace ReadError

private def displayOccurrence (occurrence : Occurrence) : String :=
  "node " ++ occurrence.digest.hex ++ " at " ++ occurrence.path.display

def message : ReadError → String
  | missingNode occurrence => "missing " ++ displayOccurrence occurrence
  | corruptNode occurrence => "corrupt " ++ displayOccurrence occurrence
  | undecodable path cause => "undecodable node at " ++ path.display ++ ": " ++ cause.message
  | missingCode digest => "missing code " ++ digest.hex
  | corruptCode digest => "corrupt code " ++ digest.hex
  | endless occurrence => "endless references below " ++ displayOccurrence occurrence

end ReadError

namespace Store

/-- The bytes of a node, which have to hash to its digest. -/
def readNode (store : Store) (H : Hash) (occurrence : Occurrence) : Except ReadError Bytes :=
  match store.node? occurrence with
  | none => .error (.missingNode occurrence)
  | some bytes =>
      if H bytes = occurrence.digest then .ok bytes else .error (.corruptNode occurrence)

def readCode (store : Store) (H : Hash) (digest : Digest) : Except ReadError Bytes :=
  match store.code? digest with
  | none => .error (.missingCode digest)
  | some bytes => if H bytes = digest then .ok bytes else .error (.corruptCode digest)

end Store

end TrieSync
