namespace TrieSync

abbrev Bytes := List UInt8

namespace Bytes

private def hexDigits (byte : UInt8) : List Char :=
  [Nat.digitChar (byte.toNat / 16), Nat.digitChar (byte.toNat % 16)]

/-- Two lowercase hexadecimal digits per byte. -/
def hex (bytes : Bytes) : String :=
  String.ofList (bytes.flatMap hexDigits)

/-- The `width` low bytes of a number, most significant first. -/
def ofNat : (width : Nat) → Nat → Bytes
  | 0, _ => []
  | width + 1, number => ofNat width (number / 256) ++ [UInt8.ofNat number]

/-- The number whose base-256 digits, most significant first, are `bytes`. -/
def toNat (bytes : Bytes) : Nat :=
  bytes.foldl (fun number byte => 256 * number + byte.toNat) 0

@[simp] theorem length_ofNat (width number : Nat) :
    (ofNat width number).length = width := by
  induction width generalizing number with
  | zero => rfl
  | succ width ih => simp [ofNat, ih]

@[simp] theorem toNat_nil : toNat [] = 0 := rfl

theorem toNat_append_singleton (bytes : Bytes) (byte : UInt8) :
    toNat (bytes ++ [byte]) = 256 * toNat bytes + byte.toNat := by
  simp [toNat]

theorem ofNat_toNat (bytes : Bytes) : ofNat bytes.length (toNat bytes) = bytes := by
  induction h : bytes.length generalizing bytes with
  | zero => simp_all [ofNat]
  | succ width ih =>
      have nonempty : bytes ≠ [] := by intro empty; simp [empty] at h
      obtain ⟨initial, last, rfl⟩ : ∃ initial last, bytes = initial ++ [last] :=
        ⟨bytes.dropLast, bytes.getLast nonempty, (List.dropLast_concat_getLast nonempty).symm⟩
      have length_initial : initial.length = width := by simpa using h
      rw [ofNat, toNat_append_singleton]
      have bound := last.toNat_lt
      have quotient : (256 * toNat initial + last.toNat) / 256 = toNat initial := by omega
      rw [quotient, ih initial length_initial]
      congr 2
      apply UInt8.toNat_inj.mp
      rw [UInt8.toNat_ofNat']
      omega

end Bytes

end TrieSync
