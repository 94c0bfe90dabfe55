import TrieSync.Digest

namespace TrieSync.Hash

namespace Sha256

def roundConstants : List UInt32 :=
  [0x428a2f98, 0x71374491, 0xb5c0fbcf, 0xe9b5dba5, 0x3956c25b, 0x59f111f1, 0x923f82a4, 0xab1c5ed5,
    0xd807aa98, 0x12835b01, 0x243185be, 0x550c7dc3, 0x72be5d74, 0x80deb1fe, 0x9bdc06a7, 0xc19bf174,
    0xe49b69c1, 0xefbe4786, 0x0fc19dc6, 0x240ca1cc, 0x2de92c6f, 0x4a7484aa, 0x5cb0a9dc, 0x76f988da,
    0x983e5152, 0xa831c66d, 0xb00327c8, 0xbf597fc7, 0xc6e00bf3, 0xd5a79147, 0x06ca6351, 0x14292967,
    0x27b70a85, 0x2e1b2138, 0x4d2c6dfc, 0x53380d13, 0x650a7354, 0x766a0abb, 0x81c2c92e, 0x92722c85,
    0xa2bfe8a1, 0xa81a664b, 0xc24b8b70, 0xc76c51a3, 0xd192e819, 0xd6990624, 0xf40e3585, 0x106aa070,
    0x19a4c116, 0x1e376c08, 0x2748774c, 0x34b0bcb5, 0x391c0cb3, 0x4ed8aa4a, 0x5b9cca4f, 0x682e6ff3,
    0x748f82ee, 0x78a5636f, 0x84c87814, 0x8cc70208, 0x90befffa, 0xa4506ceb, 0xbef9a3f7, 0xc67178f2]

/-- The eight working words `a` to `h`. -/
structure State where
  a : UInt32
  b : UInt32
  c : UInt32
  d : UInt32
  e : UInt32
  f : UInt32
  g : UInt32
  h : UInt32

namespace State

def initial : State where
  a := 0x6a09e667
  b := 0xbb67ae85
  c := 0x3c6ef372
  d := 0xa54ff53a
  e := 0x510e527f
  f := 0x9b05688c
  g := 0x1f83d9ab
  h := 0x5be0cd19

def add (left right : State) : State where
  a := left.a + right.a
  b := left.b + right.b
  c := left.c + right.c
  d := left.d + right.d
  e := left.e + right.e
  f := left.f + right.f
  g := left.g + right.g
  h := left.h + right.h

def bytes (state : State) : Bytes :=
  [state.a, state.b, state.c, state.d, state.e, state.f, state.g, state.h].flatMap fun word =>
    Bytes.ofNat 4 word.toNat

theorem length_bytes (state : State) : state.bytes.length = 32 := by
  simp [bytes]

end State

def rotateRight (word : UInt32) (count : UInt32) : UInt32 :=
  (word >>> count) ||| (word <<< (32 - count))

/-- The sixteen words of a block extended to one word per round. -/
def schedule (block : List UInt32) : Array UInt32 :=
  (List.range 48).foldl (fun words index =>
    let near := words.getD (index + 1) 0
    let far := words.getD (index + 14) 0
    let mixedNear := rotateRight near 7 ^^^ rotateRight near 18 ^^^ (near >>> 3)
    let mixedFar := rotateRight far 17 ^^^ rotateRight far 19 ^^^ (far >>> 10)
    words.push (mixedFar + words.getD (index + 9) 0 + mixedNear + words.getD index 0))
    block.toArray

def step (state : State) (constant word : UInt32) : State :=
  let choice := (state.e &&& state.f) ^^^ (~~~state.e &&& state.g)
  let majority := (state.a &&& state.b) ^^^ (state.a &&& state.c) ^^^ (state.b &&& state.c)
  let mixedA := rotateRight state.a 2 ^^^ rotateRight state.a 13 ^^^ rotateRight state.a 22
  let mixedE := rotateRight state.e 6 ^^^ rotateRight state.e 11 ^^^ rotateRight state.e 25
  let carried := state.h + mixedE + choice + constant + word
  { a := carried + mixedA + majority
    b := state.a
    c := state.b
    d := state.c
    e := state.d + carried
    f := state.e
    g := state.f
    h := state.g }

def compress (state : State) (block : List UInt32) : State :=
  state.add <| (roundConstants.zip (schedule block).toList).foldl
    (fun working round => step working round.1 round.2) state

/-- The big-endian words of a byte string of whole words. -/
def words : Bytes → List UInt32
  | a :: b :: c :: d :: rest => UInt32.ofNat (Bytes.toNat [a, b, c, d]) :: words rest
  | _ => []

/-- Absorb the given number of blocks from the front of the words. -/
def absorb : Nat → List UInt32 → State → State
  | 0, _, state => state
  | blocks + 1, words, state => absorb blocks (words.drop 16) (compress state (words.take 16))

/-- A one bit, zeros up to eight bytes short of a whole block, and the message length in bits. -/
def padding (length : Nat) : Bytes :=
  0x80 :: List.replicate ((119 - length % 64) % 64) 0 ++ Bytes.ofNat 8 (8 * length)

end Sha256

def sha256 (message : Bytes) : Digest :=
  let padded := Sha256.words (message ++ Sha256.padding message.length)
  let state := Sha256.absorb (padded.length / 16) padded Sha256.State.initial
  ⟨state.bytes, state.length_bytes⟩

end TrieSync.Hash
