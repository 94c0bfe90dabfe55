import TrieSync.Codec.Reader
import TrieSync.Nibbles

namespace TrieSync

namespace Nibbles

/-- The count of the nibbles fits in a byte. -/
def Encodable (nibbles : Nibbles) : Prop :=
  nibbles.length ≤ 255

instance (nibbles : Nibbles) : Decidable nibbles.Encodable :=
  inferInstanceAs (Decidable (_ ≤ _))

def encode (nibbles : Nibbles) : Bytes :=
  UInt8.ofNat nibbles.length :: pack nibbles

def encode? (nibbles : Nibbles) : Option Bytes :=
  if Encodable nibbles then some (encode nibbles) else none

def encodedSize (nibbles : Nibbles) : Nat :=
  1 + (nibbles.length + 1) / 2

theorem length_encode (nibbles : Nibbles) : (encode nibbles).length = encodedSize nibbles := by
  simp [encode, encodedSize, length_pack, Nat.add_comm]

end Nibbles

/-- An odd count leaves a last nibble unused, which has to be zero. -/
def Reader.nibbles : Reader Nibbles := do
  let count ← Reader.byte
  let packed ← Reader.take ((count.toNat + 1) / 2)
  let unpacked := Nibbles.unpack packed
  if count.toNat % 2 = 0 then
    return unpacked
  else if unpacked.getLast? = some 0 then
    return unpacked.dropLast
  else
    throw .nonZeroPadding

end TrieSync
