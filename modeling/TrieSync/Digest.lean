import TrieSync.Bytes

namespace TrieSync

/-- A 32-byte hash value. -/
structure Digest where
  bytes : Bytes
  length_bytes : bytes.length = 32
deriving DecidableEq

/-- A hash function; everything below is stated for an arbitrary one. -/
abbrev Hash := Bytes → Digest

namespace Digest

attribute [simp] length_bytes

@[ext] theorem ext {left right : Digest} (h : left.bytes = right.bytes) : left = right := by
  cases left; cases right; simp_all

def ofBytes? (bytes : Bytes) : Option Digest :=
  if h : bytes.length = 32 then some ⟨bytes, h⟩ else none

theorem ofBytes?_bytes (digest : Digest) : ofBytes? digest.bytes = some digest := by
  simp [ofBytes?]

theorem ofBytes?_eq_some_iff {bytes : Bytes} {digest : Digest} :
    ofBytes? bytes = some digest ↔ digest.bytes = bytes := by
  constructor
  · intro h
    unfold ofBytes? at h
    split at h
    · simp only [Option.some.injEq] at h
      rw [← h]
    · simp at h
  · rintro rfl
    exact ofBytes?_bytes digest

def hex (digest : Digest) : String :=
  Bytes.hex digest.bytes

/-- Digests are ordered by their bytes, the first byte first. -/
instance : Ord Digest where
  compare left right := compare left.bytes right.bytes

instance : Std.TransOrd Digest :=
  inferInstanceAs (Std.TransCmp (compareOn bytes))

instance : Std.LawfulEqOrd Digest where
  eq_of_compare h := ext (Std.LawfulEqOrd.eq_of_compare h)

end Digest

/-- The digest of no bytes at all, which stands for the code of an account without code. -/
def emptyCode (H : Hash) : Digest :=
  H []

end TrieSync
