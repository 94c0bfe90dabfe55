import TrieSync.Store.Read

namespace TrieSync

namespace Store

/-- What a held node refers to. -/
def readReferences (store : Store) (H : Hash) (schema : Schema) (occurrence : Occurrence) :
    Except ReadError References := do
  let bytes ← store.readNode H occurrence
  match schema.references H occurrence.path bytes with
  | .error cause => .error (.undecodable occurrence.path cause)
  | .ok references => .ok references

/-- Check code in order. -/
def verifyCodes (store : Store) (H : Hash) : List Digest → Except ReadError Unit
  | [] => .ok ()
  | code :: codes => do
      let _ ← store.readCode H code
      store.verifyCodes H codes

/-- Check a node, the code it refers to and what is below it, the last reference first, and count
the nodes. At most `height` nodes are below one another. -/
def verifyWithin (store : Store) (H : Hash) (schema : Schema) :
    (height : Nat) → Occurrence → Except ReadError Nat
  | 0, occurrence => .error (.endless occurrence)
  | height + 1, occurrence =>
      if occurrence.digest = emptyRoot H then
        .ok 0
      else do
        let references ← store.readReferences H schema occurrence
        store.verifyCodes H references.codes
        references.nodes.foldrM (fun reference count => do
          return count + (← store.verifyWithin H schema height reference)) 1

/-- References that end do so within this many nodes, since a node is met below itself only if it
holds an account, which it does at one depth and not at the next. -/
def maxHeight (store : Store) : Nat :=
  3 * (store.nodes.size + 1)

/-- Check everything that is reachable from a node at a place, and count the nodes. -/
def verifyAt (store : Store) (H : Hash) (schema : Schema) (occurrence : Occurrence) :
    Except ReadError Nat :=
  store.verifyWithin H schema store.maxHeight occurrence

/-- Check the root trie with the given root. -/
def verify (store : Store) (H : Hash) (schema : Schema) (root : Digest) : Except ReadError Nat :=
  store.verifyAt H schema ⟨.root, root⟩

end Store

end TrieSync
