import Mathlib.Data.List.Lex
import Mathlib.Data.Prod.Lex
import Mathlib.Order.Compare
import TrieSync.Proofs.Preorder

namespace TrieSync

section lexicographic

variable {α β : Type} [LinearOrder α] [LinearOrder β] {left right : α} {order order' : Ordering}

theorem compares_toLex {left' right' : β} (h : order.Compares left right)
    (h' : order'.Compares left' right') :
    (order.then order').Compares (toLex (left, left')) (toLex (right, right')) := by
  cases order with
  | lt | gt => exact Prod.Lex.toLex_lt_toLex.mpr (.inl h)
  | eq =>
      obtain rfl : left = right := h
      cases order' with
      | lt | gt => exact Prod.Lex.toLex_lt_toLex.mpr (.inr ⟨rfl, h'⟩)
      | eq => exact congrArg (fun last => toLex (left, last)) h'

theorem compares_cons {lefts rights : List α} (h : order.Compares left right)
    (h' : order'.Compares lefts rights) :
    (order.then order').Compares (left :: lefts) (right :: rights) := by
  cases order with
  | lt | gt => exact List.cons_lt_cons_iff.mpr (.inl h)
  | eq =>
      obtain rfl : left = right := h
      cases order' with
      | lt | gt => exact List.cons_lt_cons_iff.mpr (.inr ⟨rfl, h'⟩)
      | eq => exact congrArg (List.cons left) h'

end lexicographic

theorem Nibbles.compares (left right : Nibbles) : (compare left right).Compares left right := by
  induction left generalizing right with
  | nil =>
      cases right with
      | nil => rfl
      | cons next right => exact List.nil_lt_cons next right
  | cons first left ih =>
      cases right with
      | nil => exact List.nil_lt_cons first left
      | cons next right =>
          rw [List.compare_cons_cons]
          exact compares_cons ((compare_iff first next).mp rfl) (ih right)

namespace Path

/-- The part within the root trie, whether a sub-trie is entered, and the part within that one. -/
def position (path : Path) : Nibbles ×ₗ Bool ×ₗ Nibbles :=
  toLex (path.outer, toLex (!path.isRootTrie, path.inner))

theorem compares_position (left right : Path) :
    (compare left right).Compares left.position right.position := by
  rw [compare_eq_lex]
  refine compares_toLex (Nibbles.compares _ _) (compares_toLex ?_ (Nibbles.compares _ _))
  have compare_not : compare right.isRootTrie left.isRootTrie =
      compare (!left.isRootTrie) (!right.isRootTrie) := by
    cases left.isRootTrie <;> cases right.isRootTrie <;> rfl
  exact (compare_iff _ _).mp compare_not.symm

theorem covers_leaf_subTrie (key : Digest) (inner : Nibbles) :
    Covers ⟨.root, key.nibbles⟩ ⟨.account key, inner⟩ :=
  ⟨none :: inner.map some, rfl⟩

/-- An order of places in which a node is followed by what is below it. -/
structure WalkOrder (cmp : Path → Path → Ordering) : Prop where
  compares_position : ∀ left right, (cmp left right).Compares left.position right.position
  eq_iff : ∀ left right, cmp left right = .eq ↔ left = right
  eq_swap : ∀ left right, cmp left right = (cmp right left).swap
  isLE_trans : ∀ {left between right}, (cmp left between).isLE → (cmp between right).isLE →
    (cmp left right).isLE
  join_lt : ∀ {upper other}, upper.owner = other.owner → cmp upper other = .lt →
    (∀ suffix, other ≠ upper.join suffix) → ∀ suffix, cmp (upper.join suffix) other = .lt
  lt_subTrie : ∀ key inner {nibbles}, (cmp ⟨.root, nibbles⟩ ⟨.root, key.nibbles⟩).isLE →
    cmp ⟨.root, nibbles⟩ ⟨.account key, inner⟩ = .lt
  subTrie_lt : ∀ key inner {nibbles}, cmp ⟨.root, key.nibbles⟩ ⟨.root, nibbles⟩ = .lt →
    cmp ⟨.account key, inner⟩ ⟨.root, nibbles⟩ = .lt

theorem walkOrder_compare : WalkOrder compare where
  compares_position := compares_position
  eq_iff left right := Std.LawfulEqOrd.compare_eq_iff_eq
  eq_swap left right := Std.OrientedCmp.eq_swap
  isLE_trans h h' := Std.TransCmp.isLE_trans h h'
  join_lt := by
    intro upper other owner_eq less not_below suffix
    refine compare_of_covers_of_lt (covers_join upper suffix) less fun covers => ?_
    obtain ⟨suffix, other_eq⟩ := exists_join_of_covers covers owner_eq.symm
    exact not_below suffix other_eq
  lt_subTrie := by
    intro key inner nibbles before
    have leaf_lt : compare (⟨.root, key.nibbles⟩ : Path) ⟨.account key, inner⟩ = .lt :=
      compare_of_covers (covers_leaf_subTrie key inner) (by simp)
    exact Std.TransCmp.lt_of_isLE_of_lt before leaf_lt
  subTrie_lt := by
    intro key inner nibbles after
    have outer_lt : compare key.nibbles nibbles = .lt := after
    show (compare key.nibbles nibbles).then .gt = .lt
    rw [outer_lt]
    rfl

end Path

end TrieSync
