import TrieSync.Store.Read

namespace TrieSync

/-- A lookup: the nodes that were read or found missing on the way, and what was found. -/
structure Lookup where
  visited : List Occurrence
  result : Except ReadError (Option Bytes)

namespace Lookup

def absent : Lookup where
  visited := []
  result := .ok none

def found (value : Option Bytes) : Lookup where
  visited := []
  result := .ok value

def failed (error : ReadError) : Lookup where
  visited := []
  result := .error error

def after (occurrence : Occurrence) (lookup : Lookup) : Lookup where
  visited := occurrence :: lookup.visited
  result := lookup.result

end Lookup

namespace Store

/-- Descend from the nibbles taken so far along the rest of a key. The node with the given digest
is reached once the `pending` nibbles are taken as well. -/
def descend (store : Store) (H : Hash) (owner : Owner) :
    (rest : Nibbles) → (taken pending : Nibbles) → Digest → Lookup
  | rest, taken, [], digest =>
      let occurrence : Occurrence := ⟨⟨owner, taken⟩, digest⟩
      if digest = emptyRoot H then
        .absent
      else .after occurrence <|
        match store.readNode H occurrence with
        | .error error => .failed error
        | .ok bytes =>
            match Node.decode bytes with
            | .error cause => .failed (.undecodable occurrence.path (.node cause))
            | .ok .empty => .absent
            | .ok (.leaf key value) => if key = rest then .found (some value) else .absent
            | .ok (.extension key child) =>
                match key, rest with
                | first :: pending, nibble :: rest =>
                    if nibble = first then
                      descend store H owner rest (taken ++ [nibble]) pending child
                    else
                      .absent
                | _, _ => .absent
            | .ok (.branch children value) =>
                match rest with
                | [] => .found value
                | nibble :: rest =>
                    match children.get nibble with
                    | none => .absent
                    | some child => descend store H owner rest (taken ++ [nibble]) [] child
  | nibble :: rest, taken, first :: pending, digest =>
      if nibble = first then
        descend store H owner rest (taken ++ [nibble]) pending digest
      else
        .absent
  | [], _, _ :: _, _ => .absent

/-- Look up a key in the trie of an owner. -/
def lookup (store : Store) (H : Hash) (owner : Owner) (root key : Digest) : Lookup :=
  store.descend H owner key.nibbles [] [] root

/-- The value under a key in the trie of an owner. -/
def get (store : Store) (H : Hash) (owner : Owner) (root key : Digest) :
    Except ReadError (Option Bytes) :=
  (store.lookup H owner root key).result

end Store

end TrieSync
