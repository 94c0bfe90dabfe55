import Mathlib.Data.List.FinRange
import Mathlib.Data.List.Induction
import TrieSync.Proofs.NodeCodec

namespace TrieSync

namespace Bytes

theorem toNat_lt (bytes : Bytes) : toNat bytes < 256 ^ bytes.length := by
  induction bytes using List.reverseRecOn with
  | nil => simp
  | append_singleton bytes byte ih =>
      have byte_lt := byte.toNat_lt
      rw [toNat_append_singleton, List.length_append, List.length_singleton, Nat.pow_succ]
      omega

end Bytes

namespace Children

theorem bitmap_eq {children : Children} {bitmap : Nat} (bound : bitmap < 256 ^ 2)
    (bits : ∀ index (below : index < 16), bitmap.testBit index = children[index].isSome) :
    children.bitmap = bitmap := by
  apply Nat.eq_of_testBit_eq
  intro index
  by_cases below : index < 16
  · rw [children.testBit_bitmap below, bits index below]
  · have high {number : Nat} (number_lt : number < 256 ^ 2) : number.testBit index = false := by
      apply Nat.testBit_lt_two_pow
      calc
        number < 2 ^ 16 := by omega
        _ ≤ 2 ^ index := Nat.pow_le_pow_right (by decide) (by omega)
    rw [high children.bitmap_lt, high bound]

end Children

namespace Reader

variable {α β : Type} {reader : Reader α} {next : α → Reader β} {may : α → Prop}
  {encode : α → Bytes}

theorem bind_eq_ok_iff {input : Bytes} {result : β × Bytes} :
    (reader >>= next) input = .ok result ↔
      ∃ value rest, reader input = .ok (value, rest) ∧ next value rest = .ok result := by
  simp only [bind, StateT.bind, Except.bind]
  constructor
  · intro h
    split at h
    · cases h
    · exact ⟨_, _, by assumption, h⟩
  · rintro ⟨value, rest, read, h⟩
    rw [read]
    exact h

theorem eq_of_pure_eq_ok {value result : α} {input rest : Bytes}
    (h : (pure value : Reader α) input = .ok (result, rest)) : value = result ∧ input = rest :=
  Prod.mk.inj (Except.ok.inj h)

/-- A reader accepts only what begins with the encoding of a value it may give, and leaves the
rest. -/
def Accepts (reader : Reader α) (may : α → Prop) (encode : α → Bytes) : Prop :=
  ∀ input value rest, reader input = .ok (value, rest) → may value ∧ input = encode value ++ rest

theorem Accepts.exists_of_bind (h : reader.Accepts may encode) {input rest : Bytes} {result : β}
    (read : (reader >>= next) input = .ok (result, rest)) :
    ∃ value middle, may value ∧ input = encode value ++ middle ∧
      next value middle = .ok (result, rest) := by
  obtain ⟨value, middle, first, read⟩ := bind_eq_ok_iff.mp read
  obtain ⟨may_value, input_eq⟩ := h _ _ _ first
  exact ⟨value, middle, may_value, input_eq, read⟩

theorem accepts_byte : byte.Accepts (fun _ => True) fun value => [value] := by
  intro input value rest read
  cases input with
  | nil => cases read
  | cons first input =>
      cases read
      exact ⟨trivial, rfl⟩

theorem accepts_take (count : Nat) : (take count).Accepts (·.length = count) id := by
  intro input bytes rest read
  unfold take at read
  split at read
  · rename_i enough
    cases read
    exact ⟨List.length_take_of_le enough, (List.take_append_drop count input).symm⟩
  · cases read

theorem accepts_digest : Reader.digest.Accepts (fun _ => True) Digest.bytes := by
  intro input digest rest read
  unfold Reader.digest at read
  split at read
  · cases read
    exact ⟨trivial, (List.take_append_drop 32 input).symm⟩
  · cases read

theorem accepts_number (width : Nat) :
    (Reader.number width).Accepts (· < 256 ^ width) (Bytes.ofNat width) := by
  intro input number rest read
  obtain ⟨bytes, middle, rfl, rfl, made⟩ := (accepts_take width).exists_of_bind read
  obtain ⟨rfl, rfl⟩ := eq_of_pure_eq_ok made
  refine ⟨bytes.toNat_lt, ?_⟩
  rw [Bytes.ofNat_toNat]
  rfl

private theorem varintGroups_cases {groups number : Nat} {first : Bool} {input rest : Bytes}
    (read : varintGroups (groups + 1) first input = .ok (number, rest)) :
    ∃ group middle, input = group :: middle ∧ (first = false → group.toNat ≠ 0) ∧
      (groups = 0 → group.toNat < 16) ∧
      (group.toNat < 128 ∧ number = group.toNat ∧ middle = rest ∨
        128 ≤ group.toNat ∧ ∃ higher, varintGroups groups false middle = .ok (higher, rest) ∧
          number = group.toNat - 128 + 128 * higher) := by
  obtain ⟨group, middle, -, rfl, followed⟩ := accepts_byte.exists_of_bind read
  split at followed
  · cases followed
  · rename_i nonzero
    split at followed
    · cases followed
    · rename_i small
      refine ⟨group, middle, rfl, ?_, by omega, ?_⟩
      · intro later zero
        exact nonzero ⟨UInt8.toNat_inj.mp zero, later⟩
      · split at followed
        · rename_i last
          obtain ⟨rfl, rfl⟩ := eq_of_pure_eq_ok followed
          exact .inl ⟨last, rfl, rfl⟩
        · rename_i more
          obtain ⟨higher, _, read_higher, made⟩ := bind_eq_ok_iff.mp followed
          obtain ⟨rfl, rfl⟩ := eq_of_pure_eq_ok made
          exact .inr ⟨Nat.le_of_not_lt more, higher, read_higher, rfl⟩

/-- No group but the first is zero, so that a number is not taken from more groups than it needs. -/
private theorem accepts_varintGroups (groups : Nat) (first : Bool) :
    (varintGroups (groups + 1) first).Accepts
      (fun number => number < 16 * 128 ^ groups ∧ (first = false → number ≠ 0))
      (Bytes.varintGroups (groups + 1)) := by
  induction groups generalizing first with
  | zero =>
      intro input number rest read
      obtain ⟨group, middle, rfl, nonzero, small, ⟨last, rfl, rfl⟩ | ⟨more, -⟩⟩ :=
        varintGroups_cases read
      · refine ⟨⟨by simpa using small rfl, nonzero⟩, ?_⟩
        rw [Bytes.varintGroups, if_pos last, UInt8.ofNat_toNat]
        rfl
      · have group_lt := small rfl
        omega
  | succ groups ih =>
      intro input number rest read
      rw [Bytes.varintGroups]
      obtain ⟨group, middle, rfl, nonzero, -,
          ⟨last, rfl, rfl⟩ | ⟨more, higher, read_higher, rfl⟩⟩ :=
        varintGroups_cases read
      · refine ⟨⟨?_, nonzero⟩, ?_⟩
        · have positive : 0 < 128 ^ groups := Nat.pow_pos (by decide)
          rw [Nat.pow_succ]
          omega
        · rw [if_pos last, UInt8.ofNat_toNat]
          rfl
      · obtain ⟨⟨higher_lt, higher_ne⟩, rfl⟩ := ih false _ _ _ read_higher
        have group_lt := group.toNat_lt
        have higher_pos := Nat.pos_of_ne_zero (higher_ne rfl)
        have low_eq : (group.toNat - 128 + 128 * higher) % 128 + 128 = group.toNat := by omega
        have high_eq : (group.toNat - 128 + 128 * higher) / 128 = higher := by omega
        refine ⟨⟨?_, ?_⟩, ?_⟩
        · rw [Nat.pow_succ]
          omega
        · omega
        · rw [if_neg (by omega), low_eq, high_eq, UInt8.ofNat_toNat]
          rfl

theorem accepts_varint : varint.Accepts (· < 2 ^ 32) Bytes.varint := by
  intro input number rest read
  obtain ⟨⟨bound, -⟩, input_eq⟩ := accepts_varintGroups 4 true _ _ _ read
  exact ⟨by omega, input_eq⟩

theorem accepts_lengthPrefixed :
    lengthPrefixed.Accepts (·.length < 2 ^ 32) Bytes.lengthPrefixed := by
  intro input bytes rest read
  obtain ⟨count, middle, bound, rfl, taken⟩ := accepts_varint.exists_of_bind read
  obtain ⟨rfl, rfl⟩ := accepts_take count _ _ _ taken
  refine ⟨bound, ?_⟩
  rw [Bytes.lengthPrefixed, List.append_assoc]
  rfl

theorem Accepts.optional (h : reader.Accepts may encode) :
    (Reader.optional reader).Accepts (fun held => ∀ value ∈ held, may value)
      fun held => Bytes.optional (held.map encode) := by
  intro input held rest read
  obtain ⟨mark, middle, -, rfl, followed⟩ := accepts_byte.exists_of_bind read
  split at followed
  · obtain ⟨rfl, rfl⟩ := eq_of_pure_eq_ok followed
    exact ⟨by simp, rfl⟩
  · obtain ⟨value, middle, may_value, rfl, made⟩ := h.exists_of_bind followed
    obtain ⟨rfl, rfl⟩ := eq_of_pure_eq_ok made
    exact ⟨by simpa using may_value, rfl⟩
  · cases followed

theorem accepts_nibbles : Reader.nibbles.Accepts Nibbles.Encodable Nibbles.encode := by
  intro input nibbles rest read
  obtain ⟨count, middle, -, rfl, followed⟩ := accepts_byte.exists_of_bind read
  obtain ⟨packed, middle, packed_length, rfl, unpacks⟩ :=
    (accepts_take ((count.toNat + 1) / 2)).exists_of_bind followed
  have count_lt := count.toNat_lt
  have unpacked_length := Nibbles.length_unpack packed
  rw [packed_length] at unpacked_length
  suffices packs : nibbles.length = count.toNat ∧ nibbles.pack = packed ∧ middle = rest by
    obtain ⟨length_eq, pack_eq, rfl⟩ := packs
    refine ⟨?_, ?_⟩
    · show nibbles.length ≤ 255
      omega
    · rw [Nibbles.encode, length_eq, pack_eq, UInt8.ofNat_toNat]
      rfl
  dsimp only at unpacks
  split at unpacks
  · obtain ⟨rfl, rfl⟩ := eq_of_pure_eq_ok unpacks
    exact ⟨by omega, Nibbles.pack_unpack packed, rfl⟩
  · split at unpacks
    · rename_i padding
      obtain ⟨rfl, rfl⟩ := eq_of_pure_eq_ok unpacks
      obtain ⟨nibbles, unpacked_eq⟩ := List.getLast?_eq_some_iff.mp padding
      rw [unpacked_eq, List.length_append, List.length_singleton] at unpacked_length
      rw [unpacked_eq, List.dropLast_concat]
      refine ⟨by omega, Nibbles.unpack_injective ?_, rfl⟩
      rw [Nibbles.unpack_pack_of_odd (by omega), unpacked_eq]
    · cases unpacks

private theorem accepts_childrenBelow (bitmap count : Nat) :
    (childrenBelow bitmap count).Accepts
      (fun children => ∀ index (below : index < count),
        bitmap.testBit index = children[index].isSome)
      fun children => children.toList.flatMap fun child => (child.map Digest.bytes).getD [] := by
  induction count with
  | zero =>
      intro input children rest read
      obtain ⟨rfl, rfl⟩ := eq_of_pure_eq_ok read
      exact ⟨fun _ below => absurd below (Nat.not_lt_zero _), rfl⟩
  | succ count ih =>
      intro input children rest read
      obtain ⟨lower, middle, lower_bits, rfl, followed⟩ := ih.exists_of_bind read
      have bits {last : Option Digest} (last_bit : bitmap.testBit count = last.isSome) :
          ∀ index (below : index < count + 1),
            bitmap.testBit index = (lower.push last)[index].isSome := by
        intro index below
        rw [Vector.getElem_push]
        split
        · exact lower_bits index _
        · rename_i not_below
          rwa [show index = count by omega]
      split at followed
      · rename_i present
        obtain ⟨child, middle, -, rfl, made⟩ := accepts_digest.exists_of_bind followed
        obtain ⟨rfl, rfl⟩ := eq_of_pure_eq_ok made
        exact ⟨bits present, by simp [Vector.toList_push]⟩
      · rename_i absent
        obtain ⟨rfl, rfl⟩ := eq_of_pure_eq_ok followed
        exact ⟨bits (by simpa using absent), by simp [Vector.toList_push]⟩

theorem accepts_children : Reader.children.Accepts (fun _ => True) Children.encode := by
  intro input children rest read
  obtain ⟨bitmap, middle, bound, rfl, followed⟩ := (accepts_number 2).exists_of_bind read
  obtain ⟨bits, rfl⟩ := accepts_childrenBelow bitmap 16 _ _ _ followed
  refine ⟨trivial, ?_⟩
  rw [Children.encode, Children.bitmap_eq bound bits, List.append_assoc]

theorem accepts_node : Reader.node.Accepts Node.WellFormed Node.encode := by
  intro input node rest read
  obtain ⟨tag, middle, -, rfl, fields⟩ := accepts_byte.exists_of_bind read
  split at fields
  · obtain ⟨rfl, rfl⟩ := eq_of_pure_eq_ok fields
    exact ⟨trivial, rfl⟩
  · obtain ⟨key, middle, encodable, rfl, more⟩ := accepts_nibbles.exists_of_bind fields
    obtain ⟨value, middle, bound, rfl, made⟩ := accepts_lengthPrefixed.exists_of_bind more
    obtain ⟨rfl, rfl⟩ := eq_of_pure_eq_ok made
    exact ⟨⟨encodable, bound⟩, by simp [Node.encode, Node.tag]⟩
  · obtain ⟨key, middle, encodable, rfl, more⟩ := accepts_nibbles.exists_of_bind fields
    split at more
    · cases more
    · rename_i key_ne
      obtain ⟨child, middle, -, rfl, made⟩ := accepts_digest.exists_of_bind more
      obtain ⟨rfl, rfl⟩ := eq_of_pure_eq_ok made
      exact ⟨⟨key_ne, encodable⟩, by simp [Node.encode, Node.tag]⟩
  · obtain ⟨children, middle, -, rfl, more⟩ := accepts_children.exists_of_bind fields
    obtain ⟨value, middle, bound, rfl, made⟩ := accepts_lengthPrefixed.optional.exists_of_bind more
    obtain ⟨rfl, rfl⟩ := eq_of_pure_eq_ok made
    exact ⟨bound, by simp [Node.encode, Node.tag]⟩
  · cases fields

theorem Accepts.decode_eq_ok_iff (h : reader.Accepts may encode)
    (reads : ∀ {value}, may value → reader.Reads (encode value) value) {input : Bytes} {value : α} :
    reader.decode input = .ok value ↔ may value ∧ encode value = input := by
  constructor
  · intro decoded
    unfold Reader.decode at decoded
    split at decoded
    · cases decoded
    · rename_i read
      cases decoded
      obtain ⟨may_value, rfl⟩ := h _ _ _ read
      exact ⟨may_value, (List.append_nil _).symm⟩
    · cases decoded
  · rintro ⟨may_value, rfl⟩
    exact (reads may_value).decode

end Reader

namespace Children

theorem length_encode (children : Children) :
    children.encode.length = 2 + 32 * children.present.length := by
  have length_at (nibbles : List Nibble) :
      (nibbles.flatMap fun nibble => ((children.get nibble).map Digest.bytes).getD []).length =
        32 * (nibbles.filterMap fun nibble =>
          (children.get nibble).map fun child => (nibble, child)).length := by
    induction nibbles with
    | nil => rfl
    | cons nibble nibbles ih =>
        rw [List.flatMap_cons, List.filterMap_cons, List.length_append, ih]
        cases children.get nibble with
        | none => simp
        | some child => simp; omega
  have toList_eq : children.toList = (List.finRange 16).map children.get := by
    rw [← List.ofFn_eq_map, ← Vector.toList_ofFn]
    exact congrArg Vector.toList (Vector.ext fun index below =>
      (Vector.getElem_ofFn (f := children.get) below).symm)
  rw [encode, List.length_append, Bytes.length_ofNat, toList_eq, List.flatMap_map, length_at]
  rfl

end Children

theorem Bytes.length_lengthPrefixed (bytes : Bytes) :
    (lengthPrefixed bytes).length = varintSize bytes.length + bytes.length := by
  rw [lengthPrefixed, List.length_append, length_varint]

namespace Node

theorem decode_eq_ok_iff {bytes : Bytes} {node : Node} :
    Node.decode bytes = .ok node ↔ node.WellFormed ∧ node.encode = bytes :=
  Reader.accepts_node.decode_eq_ok_iff Reader.reads_node

theorem WellFormed.encodable {node : Node} (h : node.WellFormed) : node.Encodable := by
  cases node with
  | extension key child => exact h.2
  | empty | leaf | branch => exact h

theorem length_encode (node : Node) : node.encode.length = node.encodedSize := by
  cases node with
  | empty => rfl
  | leaf key value =>
      simp only [encode, encodedSize, List.length_cons, List.length_append, Nibbles.length_encode,
        Bytes.length_lengthPrefixed]
      omega
  | extension key child =>
      simp only [encode, encodedSize, List.length_cons, List.length_append, Nibbles.length_encode,
        Digest.length_bytes]
      omega
  | branch children value =>
      cases value with
      | none =>
          simp only [encode, encodedSize, List.length_cons, List.length_append,
            Children.length_encode, Option.map_none, Bytes.optional, List.length_nil]
          omega
      | some value =>
          simp only [encode, encodedSize, List.length_cons, List.length_append,
            Children.length_encode, Option.map_some, Bytes.optional, Bytes.length_lengthPrefixed]
          omega

end Node

/-- Every value of a kind has one encoding, of a size that is known beforehand, and nothing else can
be decoded. -/
structure CanonicalCoding {α : Type} (decode : Bytes → Except CodecError α) (WellFormed : α → Prop)
    (encode? : α → Option Bytes) (encodedSize : α → Nat) : Prop where
  decode_eq_ok_iff : ∀ bytes value,
    decode bytes = .ok value ↔ WellFormed value ∧ encode? value = some bytes
  decode_encode : ∀ value, WellFormed value →
    ∃ bytes, encode? value = some bytes ∧ decode bytes = .ok value
  bytes_eq : ∀ left right value, decode left = .ok value → decode right = .ok value → left = right
  length_eq : ∀ value bytes, encode? value = some bytes → bytes.length = encodedSize value

theorem CanonicalCoding.of_encode {α : Type} {decode : Bytes → Except CodecError α}
    {WellFormed Encodable : α → Prop} [DecidablePred Encodable] {encode : α → Bytes}
    {encodedSize : α → Nat}
    (decode_eq_ok_iff : ∀ {bytes value},
      decode bytes = .ok value ↔ WellFormed value ∧ encode value = bytes)
    (encodable : ∀ {value}, WellFormed value → Encodable value)
    (length_encode : ∀ value, (encode value).length = encodedSize value) :
    CanonicalCoding decode WellFormed
      (fun value => if Encodable value then some (encode value) else none) encodedSize where
  decode_eq_ok_iff bytes value := by
    rw [decode_eq_ok_iff]
    refine and_congr_right fun wellFormed => ?_
    rw [if_pos (encodable wellFormed), Option.some.injEq]
  decode_encode value wellFormed :=
    ⟨encode value, if_pos (encodable wellFormed), decode_eq_ok_iff.mpr ⟨wellFormed, rfl⟩⟩
  bytes_eq left right value left_decoded right_decoded :=
    (decode_eq_ok_iff.mp left_decoded).2.symm.trans (decode_eq_ok_iff.mp right_decoded).2
  length_eq value bytes encoded := by
    obtain ⟨-, encoded⟩ := Option.ite_none_right_eq_some.mp encoded
    obtain rfl := Option.some.inj encoded
    exact length_encode value

/-- Nodes have one encoding each, and so have runs of nibbles. -/
theorem canonicalCoding_node_nibbles :
    CanonicalCoding Node.decode Node.WellFormed Node.encode? Node.encodedSize ∧
      CanonicalCoding Reader.nibbles.decode Nibbles.Encodable Nibbles.encode? Nibbles.encodedSize :=
  ⟨.of_encode Node.decode_eq_ok_iff Node.WellFormed.encodable Node.length_encode,
    .of_encode (Reader.accepts_nibbles.decode_eq_ok_iff Reader.reads_nibbles) id
      Nibbles.length_encode⟩

end TrieSync
