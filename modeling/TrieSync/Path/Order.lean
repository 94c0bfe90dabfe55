import TrieSync.Path

/-!
Paths in the order of a walk of the whole trie that visits a node before what is below it. A node
of a sub-trie comes after the leaf that owns the sub-trie and before whatever follows that leaf.
-/

namespace TrieSync

namespace Path

/-- Two places of one kind are compared part by part. A place in the root trie is compared with
the owner of a sub-trie as a place in the root trie, and comes first if they are the same. -/
instance : Ord Path where
  compare
    | ⟨.root, left⟩, ⟨.root, right⟩ => compare left right
    | ⟨.account leftKey, left⟩, ⟨.account rightKey, right⟩ =>
        (compare leftKey rightKey).then (compare left right)
    | ⟨.root, left⟩, ⟨.account rightKey, _⟩ => (compare left rightKey.nibbles).then .lt
    | ⟨.account leftKey, _⟩, ⟨.root, right⟩ => (compare leftKey.nibbles right).then .gt

private theorem compare_byte (left right : UInt8) :
    compare left right =
      (compare (Nibbles.high left) (Nibbles.high right)).then
        (compare (Nibbles.low left) (Nibbles.low right)) := by
  have key : ∀ m n : Nat,
      compare m n = (compare (m / 16) (n / 16)).then (compare (m % 16) (n % 16)) := by
    intro m n
    rcases Nat.lt_trichotomy (m / 16) (n / 16) with h | h | h
    · rw [Nat.compare_eq_lt.mpr h, Nat.compare_eq_lt.mpr (by omega)]
      rfl
    · rw [Nat.compare_eq_eq.mpr h, Ordering.eq_then]
      rcases Nat.lt_trichotomy m n with h' | h' | h'
      · rw [Nat.compare_eq_lt.mpr h', Nat.compare_eq_lt.mpr (by omega)]
      · rw [Nat.compare_eq_eq.mpr h', Nat.compare_eq_eq.mpr (by omega)]
      · rw [Nat.compare_eq_gt.mpr h', Nat.compare_eq_gt.mpr (by omega)]
    · rw [Nat.compare_eq_gt.mpr h, Nat.compare_eq_gt.mpr (by omega)]
      rfl
  have compare_toNat : compare left right = compare left.toNat right.toNat := by
    simp only [compare, compareOfLessAndEq, UInt8.lt_iff_toNat_lt, ← UInt8.toNat_inj]
  rw [compare_toNat]
  exact key left.toNat right.toNat

private theorem compare_unpack (left right : Bytes) :
    compare (Nibbles.unpack left) (Nibbles.unpack right) = compare left right := by
  induction left generalizing right with
  | nil => cases right <;> rfl
  | cons byte left ih =>
      cases right with
      | nil => rfl
      | cons other right =>
          simp only [Nibbles.unpack_cons, List.compare_cons_cons, ih, compare_byte byte other,
            Ordering.then_assoc]

theorem compare_nibbles (left right : Digest) :
    compare left.nibbles right.nibbles = compare left right :=
  compare_unpack left.bytes right.bytes

/-- The order is lexicographic: the part within the root trie, then the root trie before the
sub-tries, then the part within a sub-trie. -/
theorem compare_eq_lex (left right : Path) :
    compare left right =
      (compare left.outer right.outer).then
        ((compare right.isRootTrie left.isRootTrie).then (compare left.inner right.inner)) := by
  obtain ⟨_ | leftKey, left⟩ := left <;> obtain ⟨_ | rightKey, right⟩ := right
  · show compare left right = _
    simp [outer, inner, isRootTrie]
  · show (compare left rightKey.nibbles).then .lt = _
    simp [outer, inner, isRootTrie]
    rfl
  · show (compare leftKey.nibbles right).then .gt = _
    simp [outer, inner, isRootTrie]
    rfl
  · show (compare leftKey rightKey).then (compare left right) = _
    simp [outer, inner, isRootTrie, compare_nibbles]

theorem ext_parts {left right : Path} (outer_eq : left.outer = right.outer)
    (isRootTrie_eq : left.isRootTrie = right.isRootTrie) (inner_eq : left.inner = right.inner) :
    left = right := by
  obtain ⟨_ | leftKey, left⟩ := left <;> obtain ⟨_ | rightKey, right⟩ := right <;>
    simp_all [outer, inner, isRootTrie]
  exact Digest.nibbles_injective outer_eq

instance : Std.TransOrd Path := by
  have compare_eq_compareLex : (compare : Path → Path → Ordering) =
      compareLex (compareOn outer)
        (compareLex (fun left right => compareOn isRootTrie right left) (compareOn inner)) := by
    funext left right
    exact compare_eq_lex left right
  show Std.TransCmp compare
  rw [compare_eq_compareLex]
  infer_instance

instance : Std.LawfulEqOrd Path where
  eq_of_compare {left right} h := by
    simp only [compare_eq_lex, Ordering.then_eq_eq, Std.LawfulEqOrd.compare_eq_iff_eq] at h
    exact ext_parts h.1 h.2.1.symm h.2.2

/-- Deeper places first, and places of one depth in their order. -/
def deepestFirst (left right : Path) : Ordering :=
  (compare right.depth left.depth).then (compare left right)

instance : Std.TransCmp deepestFirst :=
  inferInstanceAs
    (Std.TransCmp (compareLex (fun left right => compareOn depth right left) compare))

instance : Std.LawfulEqCmp deepestFirst where
  eq_of_compare h := Std.LawfulEqOrd.eq_of_compare (Ordering.then_eq_eq.mp h).2

end Path

/-- What a reference names: a digest at a place. -/
structure Occurrence where
  path : Path
  digest : Digest
deriving DecidableEq

namespace Occurrence

instance : Ord Occurrence where
  compare left right := (compare left.path right.path).then (compare left.digest right.digest)

/-- Deeper places first, and digests at one place in their order. -/
def deepestFirst (left right : Occurrence) : Ordering :=
  (Path.deepestFirst left.path right.path).then (compare left.digest right.digest)

instance : Std.TransOrd Occurrence :=
  inferInstanceAs (Std.TransCmp (compareLex (compareOn path) (compareOn digest)))

instance : Std.LawfulEqOrd Occurrence where
  eq_of_compare {left right} h := by
    obtain ⟨path_eq, digest_eq⟩ := Ordering.then_eq_eq.mp h
    cases left
    cases right
    simp only [mk.injEq]
    exact ⟨Std.LawfulEqOrd.eq_of_compare path_eq, Std.LawfulEqOrd.eq_of_compare digest_eq⟩

private instance : Std.TransCmp
    (fun left right : Occurrence => Path.deepestFirst left.path right.path) where
  eq_swap := Std.OrientedCmp.eq_swap
  isLE_trans first second := Std.TransCmp.isLE_trans first second

instance : Std.TransCmp deepestFirst :=
  inferInstanceAs (Std.TransCmp (compareLex
    (fun left right => Path.deepestFirst left.path right.path) (compareOn digest)))

instance : Std.LawfulEqCmp deepestFirst where
  eq_of_compare {left right} h := by
    obtain ⟨path_eq, digest_eq⟩ := Ordering.then_eq_eq.mp h
    cases left
    cases right
    simp only [mk.injEq]
    exact ⟨Std.LawfulEqCmp.eq_of_compare path_eq, Std.LawfulEqOrd.eq_of_compare digest_eq⟩

end Occurrence

end TrieSync
