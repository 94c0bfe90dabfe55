import TrieSync.Codec.Error
import TrieSync.Digest

namespace TrieSync

/-- Consumes bytes from the front of the input. -/
abbrev Reader := StateT Bytes (Except CodecError)

namespace Reader

variable {α : Type}

def byte : Reader UInt8 := fun input =>
  match input with
  | [] => .error .endOfBuffer
  | first :: rest => .ok (first, rest)

def take (count : Nat) : Reader Bytes := fun input =>
  if count ≤ input.length then
    .ok (input.take count, input.drop count)
  else
    .error .endOfBuffer

/-- A big-endian number of the given width. -/
def number (width : Nat) : Reader Nat := do
  return Bytes.toNat (← take width)

def digest : Reader Digest := fun input =>
  if enough : 32 ≤ input.length then
    .ok (⟨input.take 32, by simp [enough]⟩, input.drop 32)
  else
    .error .endOfBuffer

/-- The base-128 groups of a number, least significant first, of which at most `groups` are left.
The last of five groups holds only the four bits missing from 32, and a group of zeros after the
first would make the encoding longer than it need be. -/
def varintGroups : (groups : Nat) → (first : Bool) → Reader Nat
  | 0, _ => throw .invalidVarint
  | groups + 1, first => do
      let group ← byte
      if group = 0 ∧ first = false then
        throw .invalidVarint
      else if groups = 0 ∧ 15 < group.toNat then
        throw .invalidVarint
      else if group.toNat < 128 then
        return group.toNat
      else
        let higher ← varintGroups groups false
        return group.toNat - 128 + 128 * higher

def varint : Reader Nat :=
  varintGroups 5 true

/-- Bytes announced by their number. -/
def lengthPrefixed : Reader Bytes := do
  take (← varint)

def optional (reader : Reader α) : Reader (Option α) := do
  match ← byte with
  | 0 => return none
  | 1 => return some (← reader)
  | _ => throw .invalidBool

/-- The value that the whole input encodes. -/
def decode (reader : Reader α) (input : Bytes) : Except CodecError α :=
  match reader input with
  | .error error => .error error
  | .ok (value, []) => .ok value
  | .ok (_, rest) => .error (.extraData rest.length)

end Reader

namespace Bytes

/-- The base-128 groups of a number, least significant first, in at most `groups` bytes. -/
def varintGroups : (groups : Nat) → Nat → Bytes
  | 0, _ => []
  | groups + 1, number =>
      if number < 128 then
        [UInt8.ofNat number]
      else
        UInt8.ofNat (number % 128 + 128) :: varintGroups groups (number / 128)

/-- The varint of a number below `2 ^ 32`. -/
def varint (number : Nat) : Bytes :=
  varintGroups 5 number

def lengthPrefixed (bytes : Bytes) : Bytes :=
  varint bytes.length ++ bytes

def optional : Option Bytes → Bytes
  | none => [0]
  | some encoded => 1 :: encoded

/-- Number of bytes that the varint of a number takes. -/
def varintSize (number : Nat) : Nat :=
  if number < 0x80 then 1
  else if number < 0x4000 then 2
  else if number < 0x200000 then 3
  else if number < 0x10000000 then 4
  else 5

theorem length_varint (number : Nat) : (varint number).length = varintSize number := by
  unfold varint varintSize
  simp only [varintGroups]
  repeat' split
  all_goals simp
  all_goals omega

end Bytes

end TrieSync
