import TrieSync.Digest

namespace TrieSync

abbrev Nibble := Fin 16

-- A nibble literal needs this. The zero is named, as a library may bring another one.
instance Nibble.neZero : @NeZero Nat Zero.ofOfNat0 16 := ⟨by decide⟩

/-- A position in a trie, or a part of one: a sequence of 4-bit values. -/
abbrev Nibbles := List Nibble

namespace Nibbles

def high (byte : UInt8) : Nibble :=
  ⟨byte.toNat / 16, by have := byte.toNat_lt; omega⟩

def low (byte : UInt8) : Nibble :=
  ⟨byte.toNat % 16, Nat.mod_lt _ (by decide)⟩

def join (high low : Nibble) : UInt8 :=
  UInt8.ofNat (16 * high.val + low.val)

/-- The nibbles of a byte string, the high nibble of each byte first. -/
def unpack (bytes : Bytes) : Nibbles :=
  bytes.flatMap fun byte => [high byte, low byte]

/-- Two nibbles per byte, a zero standing for the missing last one of an odd number. -/
def pack : Nibbles → Bytes
  | [] => []
  | [last] => [join last 0]
  | first :: second :: rest => join first second :: pack rest

def ofValues? (values : Bytes) : Option Nibbles :=
  values.mapM fun value =>
    if bound : value.toNat < 16 then some ⟨value.toNat, bound⟩ else none

/-- The nibbles from `start` up to but not including `stop`, if there are that many. -/
def slice? (nibbles : Nibbles) (start stop : Nat) : Option Nibbles :=
  if start ≤ stop ∧ stop ≤ nibbles.length then
    some ((nibbles.take stop).drop start)
  else
    none

def push? (nibbles : Nibbles) (value : Nat) : Option Nibbles :=
  if bound : value < 16 then some (nibbles ++ [⟨value, bound⟩]) else none

def commonPrefix : Nibbles → Nibbles → Nibbles
  | left :: lefts, right :: rights =>
      if left = right then left :: commonPrefix lefts rights else []
  | _, _ => []

/-- One hexadecimal digit per nibble. -/
def hex (nibbles : Nibbles) : String :=
  String.ofList (nibbles.map fun nibble => Nat.digitChar nibble.val)

def display (nibbles : Nibbles) : String :=
  "0x" ++ hex nibbles

@[simp] theorem join_high_low (byte : UInt8) : join (high byte) (low byte) = byte := by
  apply UInt8.toNat_inj.mp
  have := byte.toNat_lt
  simp only [join, high, low, UInt8.toNat_ofNat']
  omega

@[simp] theorem high_join (first second : Nibble) : high (join first second) = first := by
  apply Fin.ext
  simp only [join, high, UInt8.toNat_ofNat']
  omega

@[simp] theorem low_join (first second : Nibble) : low (join first second) = second := by
  apply Fin.ext
  simp only [join, low, UInt8.toNat_ofNat']
  omega

@[simp] theorem unpack_nil : unpack [] = [] := rfl

@[simp] theorem unpack_cons (byte : UInt8) (bytes : Bytes) :
    unpack (byte :: bytes) = high byte :: low byte :: unpack bytes := rfl

@[simp] theorem length_unpack (bytes : Bytes) : (unpack bytes).length = 2 * bytes.length := by
  induction bytes with
  | nil => rfl
  | cons byte bytes ih => simp [ih]; omega

@[simp] theorem pack_unpack (bytes : Bytes) : pack (unpack bytes) = bytes := by
  induction bytes with
  | nil => rfl
  | cons byte bytes ih => simp [pack, ih]

theorem unpack_injective {left right : Bytes} (h : unpack left = unpack right) :
    left = right := by
  rw [← pack_unpack left, h, pack_unpack]

theorem length_pack (nibbles : Nibbles) : (pack nibbles).length = (nibbles.length + 1) / 2 := by
  induction nibbles using pack.induct with
  | case1 => rfl
  | case2 => simp [pack]
  | case3 first second rest ih => simp [pack, ih]; omega

theorem unpack_pack {nibbles : Nibbles} (even : nibbles.length % 2 = 0) :
    unpack (pack nibbles) = nibbles := by
  induction nibbles using pack.induct with
  | case1 => rfl
  | case2 => simp at even
  | case3 first second rest ih =>
      have : rest.length % 2 = 0 := by simp at even; omega
      simp [pack, ih this]

theorem unpack_pack_of_odd {nibbles : Nibbles} (odd : nibbles.length % 2 = 1) :
    unpack (pack nibbles) = nibbles ++ [0] := by
  induction nibbles using pack.induct with
  | case1 => simp at odd
  | case2 => simp [pack]
  | case3 first second rest ih =>
      have : rest.length % 2 = 1 := by simp at odd; omega
      simp [pack, ih this]

theorem slice?_append_of_isPrefix {key front : Nibbles} (place : Nibbles) (begins : front <+: key) :
    slice? (place ++ key) place.length (place.length + front.length) = some front := by
  obtain ⟨rest, rfl⟩ := begins
  simp [slice?, List.take_append, List.take_of_length_le]

theorem slice?_append (place key : Nibbles) :
    slice? (place ++ key) place.length (place ++ key).length = some key := by
  rw [List.length_append]
  exact slice?_append_of_isPrefix place (List.prefix_refl key)

theorem push?_val (nibbles : Nibbles) (nibble : Nibble) :
    push? nibbles nibble.val = some (nibbles ++ [nibble]) :=
  dif_pos nibble.isLt

theorem commonPrefix_isPrefix_left (left right : Nibbles) :
    commonPrefix left right <+: left := by
  induction left, right using commonPrefix.induct with
  | case1 lefts nibble rights ih => simpa [commonPrefix] using ih
  | case2 => simp [commonPrefix, *]
  | case3 left right h => simp [commonPrefix]

theorem commonPrefix_comm (left right : Nibbles) :
    commonPrefix left right = commonPrefix right left := by
  induction left, right using commonPrefix.induct with
  | case1 lefts nibble rights ih => simpa [commonPrefix] using ih
  | case2 left lefts right rights h => simp [commonPrefix, h, Ne.symm h]
  | case3 left right h =>
      cases left with
      | nil => cases right <;> simp [commonPrefix]
      | cons left lefts =>
          cases right with
          | nil => simp [commonPrefix]
          | cons right rights => exact (h left lefts right rights rfl rfl).elim

end Nibbles

namespace Digest

/-- A digest as a key of a root trie. -/
def nibbles (digest : Digest) : Nibbles :=
  Nibbles.unpack digest.bytes

/-- Number of nibbles in a key. -/
def keyLength : Nat := 64

@[simp] theorem length_nibbles (digest : Digest) : digest.nibbles.length = keyLength := by
  simp [nibbles, keyLength]

theorem nibbles_injective {left right : Digest} (h : left.nibbles = right.nibbles) :
    left = right :=
  ext (Nibbles.unpack_injective h)

/-- The digest that a full key stands for. -/
def ofNibbles? (nibbles : Nibbles) : Option Digest :=
  if nibbles.length = keyLength then ofBytes? (Nibbles.pack nibbles) else none

theorem ofNibbles?_nibbles (digest : Digest) : ofNibbles? digest.nibbles = some digest := by
  rw [ofNibbles?, if_pos (length_nibbles digest), nibbles, Nibbles.pack_unpack, ofBytes?_bytes]

theorem ofNibbles?_eq_some_iff {nibbles : Nibbles} {digest : Digest} :
    ofNibbles? nibbles = some digest ↔ digest.nibbles = nibbles := by
  constructor
  · intro h
    unfold ofNibbles? at h
    split at h
    · rw [ofBytes?_eq_some_iff] at h
      rw [Digest.nibbles, h]
      apply Nibbles.unpack_pack
      simp_all [keyLength]
    · simp at h
  · rintro rfl
    exact ofNibbles?_nibbles digest

end Digest

end TrieSync
