import TrieSync.Account
import TrieSync.Path.Order

namespace TrieSync

structure References where
  nodes : List Occurrence
  codes : List Digest
deriving DecidableEq

/-- Why the references of a node cannot be told. -/
inductive ReferenceError
  | node (cause : CodecError)
  | leaf (path : Path) (cause : CodecError)
  | partialKey (path : Path)
deriving DecidableEq

namespace ReferenceError

def message : ReferenceError → String
  | node cause => "invalid node: " ++ cause.message
  | leaf path cause => "invalid leaf at " ++ path.display ++ ": " ++ cause.message
  | partialKey path => "leaf key at " ++ path.display ++ " is not a full key"

end ReferenceError

namespace References

def append (left right : References) : References where
  nodes := left.nodes ++ right.nodes
  codes := left.codes ++ right.codes

instance : Append References where
  append := append

/-- The children of a node at a place. -/
def ofChildren (path : Path) (node : Node) : References where
  nodes := node.children.map fun (suffix, digest) => ⟨path.join suffix, digest⟩
  codes := []

/-- The storage trie and the code of the account under a key, unless they are empty. -/
def ofAccount (H : Hash) (key : Digest) (account : Account) : References where
  nodes :=
    if account.storageRoot = emptyRoot H then []
    else [⟨.subTrie key, account.storageRoot⟩]
  codes := if account.codeHash = emptyCode H then [] else [account.codeHash]

/-- What the value under a key of the root trie refers to if it is an account. -/
def ofValue (H : Hash) (key : Nibbles) (value : Bytes) : Except ReferenceError References :=
  match Digest.ofNibbles? key with
  | none => .error (.partialKey ⟨.root, key⟩)
  | some owner =>
      match Account.decode value with
      | .error cause => .error (.leaf ⟨.root, key⟩ cause)
      | .ok account => .ok (ofAccount H owner account)

/-- What the values of a node at the given place of the root trie refer to if they are accounts. -/
def ofValues (H : Hash) (place : Nibbles) :
    List (Nibbles × Bytes) → Except ReferenceError References
  | [] => .ok ⟨[], []⟩
  | (suffix, value) :: values => do
      let first ← ofValue H (place ++ suffix) value
      let rest ← ofValues H place values
      return first ++ rest

end References

/-- How the values of a root trie are read: as bytes that refer to nothing, or as accounts. The
values of a sub-trie never refer to anything. -/
inductive Schema
  | plain
  | accounts
deriving DecidableEq

namespace Schema

def nodeReferences (schema : Schema) (H : Hash) (path : Path) (node : Node) :
    Except ReferenceError References :=
  match schema, path.owner with
  | accounts, .root => do
      let values ← References.ofValues H path.nibbles node.values
      return .ofChildren path node ++ values
  | _, _ => .ok (.ofChildren path node)

/-- What the bytes of a node refer to, given the place that it is found at. -/
def references (schema : Schema) (H : Hash) (path : Path) (bytes : Bytes) :
    Except ReferenceError References :=
  match Node.decode bytes with
  | .error cause => .error (.node cause)
  | .ok node => schema.nodeReferences H path node

end Schema

end TrieSync
