import TrieSync.Nibbles.Codec
import TrieSync.Node

namespace TrieSync

namespace Children

def encode (children : Children) : Bytes :=
  Bytes.ofNat 2 children.bitmap ++ children.toList.flatMap fun child =>
    (child.map Digest.bytes).getD []

end Children

namespace Node

/-- The lengths in the node fit in the fields that announce them. -/
def Encodable : Node → Prop
  | empty => True
  | leaf key value => key.Encodable ∧ value.length < UInt32.size
  | extension key _ => key.Encodable
  | branch _ value => ∀ bytes ∈ value, bytes.length < UInt32.size

instance : (node : Node) → Decidable node.Encodable
  | empty => inferInstanceAs (Decidable True)
  | leaf _ _ => inferInstanceAs (Decidable (_ ∧ _))
  | extension key _ => inferInstanceAs (Decidable key.Encodable)
  | branch _ value => inferInstanceAs (Decidable (∀ bytes ∈ value, bytes.length < UInt32.size))

/-- Decoding returns only such nodes: an extension that adds nothing to a path is refused. -/
def WellFormed : Node → Prop
  | extension key child => key ≠ [] ∧ (extension key child).Encodable
  | node => node.Encodable

def tag : Node → UInt8
  | empty => 0
  | leaf _ _ => 1
  | extension _ _ => 2
  | branch _ _ => 3

def encode (node : Node) : Bytes :=
  node.tag :: match node with
    | empty => []
    | leaf key value => key.encode ++ Bytes.lengthPrefixed value
    | extension key child => key.encode ++ child.bytes
    | branch children value => children.encode ++ Bytes.optional (value.map Bytes.lengthPrefixed)

def encode? (node : Node) : Option Bytes :=
  if node.Encodable then some node.encode else none

def encodedSize (node : Node) : Nat :=
  1 + match node with
    | empty => 0
    | leaf key value => key.encodedSize + (Bytes.varintSize value.length + value.length)
    | extension key _ => key.encodedSize + 32
    | branch children value =>
        2 + 32 * children.present.length + match value with
          | none => 1
          | some value => 1 + (Bytes.varintSize value.length + value.length)

def digest (H : Hash) (node : Node) : Digest :=
  H node.encode

end Node

namespace Reader

/-- The children for nibbles below `count`, each present if its bit is set. -/
def childrenBelow (bitmap : Nat) : (count : Nat) → Reader (Vector (Option Digest) count)
  | 0 => return #v[]
  | count + 1 => do
      let lower ← childrenBelow bitmap count
      if bitmap.testBit count then
        return lower.push (some (← digest))
      else
        return lower.push none

def children : Reader Children := do
  childrenBelow (← number 2) 16

def node : Reader Node := do
  match ← byte with
  | 0 => return .empty
  | 1 =>
      let key ← nibbles
      let value ← lengthPrefixed
      return .leaf key value
  | 2 =>
      let key ← nibbles
      if key = [] then
        throw .emptyExtensionKey
      else
        return .extension key (← digest)
  | 3 =>
      let children ← children
      let value ← optional lengthPrefixed
      return .branch children value
  | tag => throw (.invalidTag tag)

end Reader

def Node.decode (bytes : Bytes) : Except CodecError Node :=
  Reader.node.decode bytes

/-- The root of a trie without entries. -/
def emptyRoot (H : Hash) : Digest :=
  Node.empty.digest H

end TrieSync
