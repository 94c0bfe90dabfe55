import Mathlib.Algebra.Group.Nat.Defs
import TrieSync.Digest

namespace TrieSync

/-- A hash that is quick to compute: the digits of a number, cut to 32 bytes. -/
def quickHash : Hash := fun bytes =>
  let number := bytes.foldl (fun number byte => (257 * number + byte.toNat + 1) % 2 ^ 256) 0
  ⟨Bytes.ofNat 32 number, Bytes.length_ofNat 32 number⟩

end TrieSync
