import Mathlib.Algebra.Group.Nat.Defs
import TrieSync.Account

namespace TrieSync

namespace Bytes

theorem toNat_ofNat {width number : Nat} (bound : number < 256 ^ width) :
    toNat (ofNat width number) = number := by
  induction width generalizing number with
  | zero => simp at bound; simp [ofNat, bound]
  | succ width ih =>
      rw [ofNat, toNat_append_singleton, ih, UInt8.toNat_ofNat']
      · omega
      · rw [Nat.pow_succ] at bound
        omega

end Bytes

namespace Children

private theorem bit_below (present : Bool) (higher : Nat) :
    (present.toNat + 2 * higher) / 2 = higher ∧
      (present.toNat + 2 * higher) % 2 = present.toNat := by
  cases present
  · simp
  · simp
    omega

private theorem testBit_foldr (list : List (Option Digest)) (index : Nat) :
    (list.foldr (fun (child : Option Digest) higher => child.isSome.toNat + 2 * higher) 0).testBit
      index = (list[index]?.join).isSome := by
  induction list generalizing index with
  | nil => simp
  | cons child list ih =>
      rw [List.foldr_cons]
      cases index with
      | zero =>
          rw [Nat.testBit_zero, (bit_below _ _).2]
          cases child <;> rfl
      | succ index => rw [Nat.testBit_succ, (bit_below _ _).1, ih, List.getElem?_cons_succ]

private theorem foldr_lt (list : List (Option Digest)) :
    list.foldr (fun (child : Option Digest) higher => child.isSome.toNat + 2 * higher) 0 <
      2 ^ list.length := by
  induction list with
  | nil => simp
  | cons child list ih =>
      have := child.isSome.toNat_le
      rw [List.foldr_cons, List.length_cons, Nat.pow_succ]
      omega

theorem bitmap_lt (children : Children) : children.bitmap < 256 ^ 2 := by
  have bound := foldr_lt children.toList
  rwa [Vector.length_toList] at bound

theorem testBit_bitmap (children : Children) {index : Nat} (bound : index < 16) :
    children.bitmap.testBit index = children[index].isSome := by
  rw [bitmap, testBit_foldr, Vector.getElem?_toList, Vector.getElem?_eq_getElem bound]
  rfl

end Children

namespace Reader

variable {α β : Type} {reader : Reader α} {next : α → Reader β} {encoded encoded' : Bytes}
  {value : α} {result : β}

/-- A reader gets a value from its encoding, and leaves what follows. -/
def Reads (reader : Reader α) (encoded : Bytes) (value : α) : Prop :=
  ∀ rest, reader (encoded ++ rest) = .ok (value, rest)

theorem Reads.decode (h : reader.Reads encoded value) : reader.decode encoded = .ok value := by
  have read := h []
  rw [List.append_nil] at read
  rw [Reader.decode, read]

theorem reads_pure (value : α) : Reads (pure value) [] value :=
  fun _ => rfl

theorem Reads.bind (h : reader.Reads encoded value) (h' : (next value).Reads encoded' result) :
    Reads (reader >>= next) (encoded ++ encoded') result := by
  intro rest
  rw [List.append_assoc]
  show (reader (encoded ++ (encoded' ++ rest)) >>= fun pair => next pair.1 pair.2) = _
  rw [h]
  exact h' rest

theorem Reads.map (h : reader.Reads encoded value) (f : α → β) :
    Reads (reader >>= fun value => pure (f value)) encoded (f value) := by
  have mapped : Reads (reader >>= fun value => pure (f value)) (encoded ++ []) (f value) :=
    h.bind (reads_pure (f value))
  rwa [List.append_nil] at mapped

theorem reads_byte (value : UInt8) : byte.Reads [value] value :=
  fun _ => rfl

theorem reads_take (bytes : Bytes) : (take bytes.length).Reads bytes bytes := by
  intro rest
  simp [take]

theorem reads_number {width number : Nat} (bound : number < 256 ^ width) :
    (Reader.number width).Reads (Bytes.ofNat width number) number := by
  have read := reads_take (Bytes.ofNat width number)
  rw [Bytes.length_ofNat] at read
  have mapped := read.map Bytes.toNat
  rwa [Bytes.toNat_ofNat bound] at mapped

theorem reads_digest (digest : Digest) : Reader.digest.Reads digest.bytes digest := by
  intro rest
  simp [Reader.digest]

private theorem reads_lastGroup {groups number : Nat} {first : Bool} (bound : number < 128)
    (last : groups = 0 → number < 16) (nonzero : first = false → number ≠ 0) :
    (varintGroups (groups + 1) first).Reads [UInt8.ofNat number] number := by
  have group_eq : (UInt8.ofNat number).toNat = number := by
    rw [UInt8.toNat_ofNat']
    omega
  have not_zero : ¬ (UInt8.ofNat number = 0 ∧ first = false) := by
    rintro ⟨zero, rfl⟩
    exact nonzero rfl (by rw [← group_eq, zero]; rfl)
  rw [← List.append_nil [UInt8.ofNat number]]
  refine (reads_byte _).bind ?_
  rw [if_neg not_zero, group_eq, if_neg (by omega), if_pos bound]
  exact reads_pure number

private theorem reads_varintGroups {groups number : Nat} {first : Bool}
    (bound : number < 16 * 128 ^ groups) (nonzero : first = false → number ≠ 0) :
    (varintGroups (groups + 1) first).Reads (Bytes.varintGroups (groups + 1) number) number := by
  induction groups generalizing number first with
  | zero =>
      rw [Bytes.varintGroups, if_pos (by omega)]
      exact reads_lastGroup (by omega) (by omega) nonzero
  | succ groups ih =>
      rw [Bytes.varintGroups]
      by_cases small : number < 128
      · rw [if_pos small]
        exact reads_lastGroup small (by omega) nonzero
      · have group_eq : (UInt8.ofNat (number % 128 + 128)).toNat = number % 128 + 128 := by
          rw [UInt8.toNat_ofNat']
          omega
        have not_zero : UInt8.ofNat (number % 128 + 128) ≠ 0 := by
          intro zero
          rw [zero] at group_eq
          simp at group_eq
        have reads_higher : (varintGroups (groups + 1) false).Reads
            (Bytes.varintGroups (groups + 1) (number / 128)) (number / 128) :=
          ih (by rw [Nat.pow_succ] at bound; omega) (by omega)
        have higher := reads_higher.map fun higher => number % 128 + 128 * higher
        rw [Nat.mod_add_div] at higher
        rw [if_neg small]
        refine (reads_byte _).bind ?_
        rw [if_neg fun zero => not_zero zero.1, group_eq, if_neg (by omega), if_neg (by omega),
          Nat.add_sub_cancel]
        exact higher

theorem reads_varint {number : Nat} (bound : number < 2 ^ 32) :
    varint.Reads (Bytes.varint number) number :=
  reads_varintGroups (by omega) (by simp)

theorem reads_lengthPrefixed {bytes : Bytes} (bound : bytes.length < 2 ^ 32) :
    lengthPrefixed.Reads (Bytes.lengthPrefixed bytes) bytes :=
  (reads_varint bound).bind (reads_take bytes)

theorem reads_optional {encode : α → Bytes} (held : Option α)
    (reads : ∀ value ∈ held, reader.Reads (encode value) value) :
    (optional reader).Reads (Bytes.optional (held.map encode)) held := by
  cases held with
  | none => exact (reads_byte 0).bind (reads_pure none)
  | some value => exact (reads_byte 1).bind ((reads value rfl).map some)

theorem reads_nibbles {nibbles : Nibbles} (encodable : nibbles.Encodable) :
    Reader.nibbles.Reads nibbles.encode nibbles := by
  have count_eq : (UInt8.ofNat nibbles.length).toNat = nibbles.length := by
    rw [UInt8.toNat_ofNat']
    have : nibbles.length ≤ 255 := encodable
    omega
  have packed := reads_take nibbles.pack
  rw [Nibbles.length_pack] at packed
  refine (reads_byte _).bind ?_
  rw [count_eq]
  by_cases even : nibbles.length % 2 = 0
  · have read := packed.map Nibbles.unpack
    rw [Nibbles.unpack_pack even] at read
    simpa only [if_pos even] using read
  · rw [← List.append_nil nibbles.pack]
    refine packed.bind ?_
    rw [if_neg even, Nibbles.unpack_pack_of_odd (by omega), if_pos (by simp), List.dropLast_concat]
    exact reads_pure nibbles

private theorem reads_childrenBelow {bitmap count : Nat} (children : Vector (Option Digest) count)
    (bits : ∀ index (bound : index < count), bitmap.testBit index = children[index].isSome) :
    (childrenBelow bitmap count).Reads
      (children.toList.flatMap fun child => (child.map Digest.bytes).getD []) children := by
  induction count with
  | zero =>
      obtain rfl : children = #v[] := by simp
      exact reads_pure _
  | succ count ih =>
      obtain ⟨lower, last, rfl⟩ : ∃ (lower : Vector (Option Digest) count) (last : Option Digest),
          children = lower.push last :=
        ⟨children.pop, children.back, (Vector.push_pop_back children).symm⟩
      have lower_reads := ih lower fun index bound => by
        rw [bits index (by omega), Vector.getElem_push_lt bound]
      have last_bit := bits count (by omega)
      rw [Vector.getElem_push_eq] at last_bit
      rw [Vector.toList_push, List.flatMap_append]
      refine lower_reads.bind ?_
      cases last with
      | none =>
          rw [if_neg (by simp [last_bit])]
          exact reads_pure _
      | some child =>
          rw [if_pos (by simp [last_bit]), List.flatMap_singleton]
          exact (reads_digest child).map fun child => lower.push (some child)

theorem reads_children (children : Children) :
    Reader.children.Reads children.encode children := by
  have bitmap_reads : (number 2).Reads (Bytes.ofNat 2 children.bitmap) children.bitmap :=
    reads_number children.bitmap_lt
  exact bitmap_reads.bind (reads_childrenBelow children fun _ => children.testBit_bitmap)

theorem reads_node {node : Node} (wellFormed : node.WellFormed) :
    Reader.node.Reads node.encode node := by
  cases node with
  | empty => exact (reads_byte 0).bind (reads_pure Node.empty)
  | leaf key value =>
      obtain ⟨key_encodable, value_bound⟩ := wellFormed
      exact (reads_byte 1).bind ((reads_nibbles key_encodable).bind
        ((reads_lengthPrefixed value_bound).map (Node.leaf key)))
  | extension key child =>
      obtain ⟨key_ne, key_encodable⟩ := wellFormed
      refine (reads_byte 2).bind ((reads_nibbles key_encodable).bind ?_)
      rw [if_neg key_ne]
      exact (reads_digest child).map (Node.extension key)
  | branch children value =>
      exact (reads_byte 3).bind ((reads_children children).bind
        ((reads_optional value fun _ held => reads_lengthPrefixed (wellFormed _ held)).map
          (Node.branch children)))

theorem reads_account (account : Account) : Reader.account.Reads account.encode account := by
  have reads_word (word : UInt64) :
      (number 8).Reads (Bytes.ofNat 8 word.toNat) word.toNat := reads_number word.toNat_lt
  rw [Account.encode, List.append_assoc, List.append_assoc]
  refine (reads_word account.nonce).bind ((reads_word account.balance).bind
    ((reads_digest account.storageRoot).bind ?_))
  have read := (reads_digest account.codeHash).map fun codeHash =>
    ({ nonce := .ofNat account.nonce.toNat, balance := .ofNat account.balance.toNat,
       storageRoot := account.storageRoot, codeHash } : Account)
  simpa using read

end Reader

theorem Node.decode_encode {node : Node} (wellFormed : node.WellFormed) :
    Node.decode node.encode = .ok node :=
  (Reader.reads_node wellFormed).decode

theorem Node.encode_injective {left right : Node} (left_wellFormed : left.WellFormed)
    (right_wellFormed : right.WellFormed) (h : left.encode = right.encode) : left = right :=
  Except.ok.inj ((decode_encode left_wellFormed).symm.trans (h ▸ decode_encode right_wellFormed))

theorem Account.decode_encode (account : Account) : Account.decode account.encode = .ok account :=
  (Reader.reads_account account).decode

theorem Account.encode_injective {left right : Account} (h : left.encode = right.encode) :
    left = right :=
  Except.ok.inj (left.decode_encode.symm.trans (h ▸ right.decode_encode))

end TrieSync
