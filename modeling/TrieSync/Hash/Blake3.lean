import TrieSync.Digest

namespace TrieSync.Hash

namespace Blake3

abbrev Words := Vector UInt32 16

def initialValue : Vector UInt32 8 :=
  #v[0x6a09e667, 0xbb67ae85, 0x3c6ef372, 0xa54ff53a, 0x510e527f, 0x9b05688c, 0x1f83d9ab, 0x5be0cd19]

/-- Where each message word of the next round is taken from. -/
def messageOrder : Vector (Fin 16) 16 :=
  #v[2, 6, 3, 10, 7, 0, 4, 13, 1, 11, 12, 5, 9, 14, 15, 8]

def chunkStart : UInt32 := 1
def chunkEnd : UInt32 := 2
def parentNode : UInt32 := 4
def rootNode : UInt32 := 8

def chunkLength : Nat := 1024
def blockLength : Nat := 64

def rotateRight (word : UInt32) (count : UInt32) : UInt32 :=
  (word >>> count) ||| (word <<< (32 - count))

def mix (state : Words) (a b c d : Fin 16) (x y : UInt32) : Words :=
  let a₁ := state[a] + state[b] + x
  let d₁ := rotateRight (state[d] ^^^ a₁) 16
  let c₁ := state[c] + d₁
  let b₁ := rotateRight (state[b] ^^^ c₁) 12
  let a₂ := a₁ + b₁ + y
  let d₂ := rotateRight (d₁ ^^^ a₂) 8
  let c₂ := c₁ + d₂
  let b₂ := rotateRight (b₁ ^^^ c₂) 7
  (((state.set a a₂).set b b₂).set c c₂).set d d₂

/-- Mix the four columns and then the four diagonals of the state. -/
def round (state message : Words) : Words :=
  let state := mix state 0 4 8 12 message[0] message[1]
  let state := mix state 1 5 9 13 message[2] message[3]
  let state := mix state 2 6 10 14 message[4] message[5]
  let state := mix state 3 7 11 15 message[6] message[7]
  let state := mix state 0 5 10 15 message[8] message[9]
  let state := mix state 1 6 11 12 message[10] message[11]
  let state := mix state 2 7 8 13 message[12] message[13]
  mix state 3 4 9 14 message[14] message[15]

def rounds : Nat → Words → Words → Words
  | 0, state, _ => state
  | count + 1, state, message =>
      rounds count (round state message) (messageOrder.map fun source => message[source])

/-- A block that is still to be compressed, so that the last one can be marked as the root. -/
structure Node where
  chaining : Vector UInt32 8
  message : Words
  counter : Nat
  length : Nat
  flags : UInt32

namespace Node

def compress (node : Node) (extraFlags : UInt32) : Vector UInt32 8 :=
  let start : Words := node.chaining ++ #v[initialValue[0], initialValue[1], initialValue[2],
    initialValue[3], UInt32.ofNat node.counter, UInt32.ofNat (node.counter / UInt32.size),
    UInt32.ofNat node.length, node.flags ||| extraFlags]
  let state := rounds 7 start node.message
  .ofFn fun index : Fin 8 => state[index.val] ^^^ state[index.val + 8]

def chainingValue (node : Node) : Vector UInt32 8 :=
  node.compress 0

def parent (left right : Node) : Node where
  chaining := initialValue
  message := left.chainingValue ++ right.chainingValue
  counter := 0
  length := blockLength
  flags := parentNode

end Node

/-- The little-endian words of a block, zeros standing for the bytes that it lacks. -/
def blockWords (block : Bytes) : Words :=
  let bytes := block.toArray
  .ofFn fun index => UInt32.ofNat <| Bytes.toNat
    [bytes.getD (4 * index + 3) 0, bytes.getD (4 * index + 2) 0, bytes.getD (4 * index + 1) 0,
      bytes.getD (4 * index) 0]

/-- Absorb the blocks of a chunk up to the last, of which there are `blocks` before it. -/
def chunkFrom (counter : Nat) :
    (blocks : Nat) → Vector UInt32 8 → (startFlag : UInt32) → Bytes → Node
  | 0, chaining, startFlag, bytes =>
      { chaining, message := blockWords bytes, counter, length := bytes.length
        flags := startFlag ||| chunkEnd }
  | blocks + 1, chaining, startFlag, bytes =>
      let node : Node :=
        { chaining, message := blockWords (bytes.take blockLength), counter
          length := blockLength, flags := startFlag }
      chunkFrom counter blocks node.chainingValue 0 (bytes.drop blockLength)

def chunk (counter : Nat) (bytes : Bytes) : Node :=
  chunkFrom counter ((bytes.length - 1) / blockLength) initialValue chunkStart bytes

/-- The tree over at most `2 ^ levels` chunks. Its left part is the largest full tree that leaves
something for the right part. -/
def tree : (levels : Nat) → (counter : Nat) → Bytes → Node
  | 0, counter, bytes => chunk counter bytes
  | levels + 1, counter, bytes =>
      let leftLength := chunkLength * 2 ^ levels
      if bytes.length ≤ leftLength then
        tree levels counter bytes
      else
        .parent (tree levels counter (bytes.take leftLength))
          (tree levels (counter + 2 ^ levels) (bytes.drop leftLength))

def wordBytes (word : UInt32) : Bytes :=
  (Bytes.ofNat 4 word.toNat).reverse

end Blake3

def blake3 (message : Bytes) : Digest :=
  let output := (Blake3.tree message.length.log2 0 message).compress Blake3.rootNode
  ⟨(List.finRange 8).flatMap fun index => Blake3.wordBytes output[index], by
    simp only [Blake3.wordBytes, List.length_flatMap, List.length_reverse, Bytes.length_ofNat]
    rfl⟩

end TrieSync.Hash
