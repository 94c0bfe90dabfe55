import TrieSync.Nibbles

namespace TrieSync

/-- The children of a branch, one place for each value of the next nibble. -/
abbrev Children := Vector (Option Digest) 16

/-- A node of a trie. It refers to the nodes below it by digest. -/
inductive Node
  /-- The root of a trie without entries. -/
  | empty
  /-- The rest of a key and the value under that key. -/
  | leaf (key : Nibbles) (value : Bytes)
  /-- A run of nibbles that every key below begins with. -/
  | extension (key : Nibbles) (child : Digest)
  | branch (children : Children) (value : Option Bytes)
deriving DecidableEq

namespace Children

def absent : Children :=
  .replicate 16 none

def set (children : Children) (nibble : Nibble) (child : Option Digest) : Children :=
  children.setIfInBounds nibble child

@[simp] theorem get_ofFn (child : Nibble → Option Digest) (nibble : Nibble) :
    Vector.get (.ofFn child) nibble = child nibble :=
  Vector.getElem_ofFn nibble.isLt

/-- The children that are present, by ascending nibble. -/
def present (children : Children) : List (Nibble × Digest) :=
  (List.finRange 16).filterMap fun nibble =>
    (children.get nibble).map fun child => (nibble, child)

/-- One bit for each child, the bit for nibble 0 having the value 1. -/
def bitmap (children : Children) : Nat :=
  children.toList.foldr (fun child higher => child.isSome.toNat + 2 * higher) 0

def displayBitmap (children : Children) : String :=
  String.ofList (children.toList.reverse.map fun child => if child.isSome then '1' else '0')

end Children

namespace Node

/-- The nodes that a node refers to, with the nibbles that lead to each. -/
def children : Node → List (Nibbles × Digest)
  | empty => []
  | leaf _ _ => []
  | extension key child => [(key, child)]
  | branch children _ => children.present.map fun (nibble, child) => ([nibble], child)

/-- The values in the node itself, with the nibbles that lead to each. -/
def values : Node → List (Nibbles × Bytes)
  | empty => []
  | leaf key value => [(key, value)]
  | extension _ _ => []
  | branch _ value => value.toList.map fun value => ([], value)

/-- A branch without a value and with two children. -/
def fork (left right : Nibble × Digest) : Node :=
  branch ((Children.absent.set left.1 (some left.2)).set right.1 (some right.2)) none

def display : Node → String
  | empty => "[empty]"
  | leaf key value => "[leaf key:" ++ Nibbles.display key ++ " value:" ++ Bytes.hex value ++ "]"
  | extension key child => "[extension key:" ++ Nibbles.display key ++ " child:" ++ child.hex ++ "]"
  | branch children none => "[branch children:" ++ children.displayBitmap ++ "]"
  | branch children (some value) =>
      "[branch children:" ++ children.displayBitmap ++ " value:" ++ Bytes.hex value ++ "]"

end Node

end TrieSync
