import TrieSync.Nibbles

namespace TrieSync

/-- The trie that a node belongs to: the root trie, or the sub-trie of the root-trie leaf with a
given key. -/
inductive Owner
  | root
  | account (key : Digest)
deriving DecidableEq

namespace Owner

/-- The root trie comes first, and the sub-tries follow by their keys. -/
instance : Ord Owner where
  compare
    | root, root => .eq
    | root, account _ => .lt
    | account _, root => .gt
    | account left, account right => compare left right

end Owner

/-- The place of a node: the nibbles that lead to it from the root of its trie. -/
structure Path where
  owner : Owner
  nibbles : Nibbles
deriving DecidableEq

namespace Path

/-- The root node of the root trie. -/
def root : Path where
  owner := .root
  nibbles := []

/-- The root node of the sub-trie of the leaf with the given key. -/
def subTrie (key : Digest) : Path where
  owner := .account key
  nibbles := []

/-- The place that more nibbles lead to within the same trie. -/
def join (path : Path) (suffix : Nibbles) : Path where
  owner := path.owner
  nibbles := path.nibbles ++ suffix

def isRootTrie (path : Path) : Bool :=
  path.owner = .root

/-- The nibbles within the root trie: those of the owner's key for a node of a sub-trie. -/
def outer : Path → Nibbles
  | ⟨.root, nibbles⟩ => nibbles
  | ⟨.account key, _⟩ => key.nibbles

/-- The nibbles within a sub-trie. -/
def inner : Path → Nibbles
  | ⟨.root, _⟩ => []
  | ⟨.account _, nibbles⟩ => nibbles

/-- Number of nibbles on the way from the root of the root trie. -/
def depth : Path → Nat
  | ⟨.root, nibbles⟩ => nibbles.length
  | ⟨.account _, nibbles⟩ => Digest.keyLength + nibbles.length

def display : Path → String
  | ⟨.root, nibbles⟩ => "[" ++ Nibbles.display nibbles ++ "]"
  | ⟨.account key, nibbles⟩ => "[" ++ key.hex ++ ", " ++ Nibbles.display nibbles ++ "]"

@[simp] theorem nibbles_join (path : Path) (suffix : Nibbles) :
    (path.join suffix).nibbles = path.nibbles ++ suffix := rfl

@[simp] theorem join_nil (path : Path) : path.join [] = path := by
  simp [join]

theorem depth_join (path : Path) (suffix : Nibbles) :
    (path.join suffix).depth = path.depth + suffix.length := by
  obtain ⟨_ | key, nibbles⟩ := path <;> simp [join, depth, Nat.add_assoc]

end Path

end TrieSync
