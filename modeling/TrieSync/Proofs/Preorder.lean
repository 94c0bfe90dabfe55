import TrieSync.Proofs.Walk

namespace TrieSync

namespace Path

section lists

variable {α : Type} [Ord α]

private theorem compare_map_some_append {leftRest rightRest : List (Option α)}
    (left_first : ∀ step more, compare leftRest (some step :: more) = .lt)
    (right_first : ∀ step more, compare (some step :: more) rightRest = .gt) (left right : List α) :
    compare (left.map some ++ leftRest) (right.map some ++ rightRest) =
      (compare left right).then (compare leftRest rightRest) := by
  induction left generalizing right with
  | nil =>
      cases right with
      | nil => rfl
      | cons next right => exact left_first next _
  | cons first left ih =>
      cases right with
      | nil => exact right_first first _
      | cons next right =>
          simp only [List.map_cons, List.cons_append, List.compare_cons_cons, ih,
            Ordering.then_assoc]
          rfl

theorem compare_append_of_ne_nil [Std.ReflOrd α] (left : List α) {suffix : List α}
    (nonempty : suffix ≠ []) : compare left (left ++ suffix) = .lt := by
  induction left with
  | nil =>
      cases suffix with
      | nil => exact absurd rfl nonempty
      | cons first suffix => rfl
  | cons first left ih =>
      rw [List.cons_append, List.compare_cons_cons, Std.ReflOrd.compare_self, ih]
      rfl

theorem compare_append_of_not_prefix [Std.LawfulEqOrd α] {left right : List α}
    (less : compare left right = .lt) (apart : ¬ left <+: right) (suffix : List α) :
    compare (left ++ suffix) right = .lt := by
  induction left generalizing right with
  | nil => exact absurd List.nil_prefix apart
  | cons first left ih =>
      cases right with
      | nil => exact absurd less (by simp)
      | cons next right =>
          rw [List.cons_append, List.compare_cons_cons]
          rw [List.compare_cons_cons, Ordering.then_eq_lt] at less
          rcases less with less | ⟨same, less⟩
          · rw [less]
            rfl
          · obtain rfl := Std.LawfulEqOrd.eq_of_compare same
            rw [same, ih less (fun covers => apart (List.cons_prefix_cons.mpr ⟨rfl, covers⟩))]
            rfl

end lists

/-- The rest of a way after the part within the root trie. -/
private def turn : Path → List (Option Nibble)
  | ⟨.root, _⟩ => []
  | ⟨.account _, nibbles⟩ => none :: nibbles.map some

private theorem walk_eq_append (path : Path) : path.walk = path.outer.map some ++ path.turn := by
  obtain ⟨_ | key, nibbles⟩ := path
  · exact (List.append_nil _).symm
  · rfl

private theorem compare_turn (left right : Path) :
    compare left.turn right.turn =
      (compare right.isRootTrie left.isRootTrie).then (compare left.inner right.inner) := by
  obtain ⟨_ | leftKey, left⟩ := left <;> obtain ⟨_ | rightKey, right⟩ := right
  · rfl
  · rfl
  · rfl
  · have ends : ∀ left right : Nibbles, compare (left.map some ++ []) (right.map some ++ []) =
        compare left right :=
      fun left right => (compare_map_some_append (fun _ _ => rfl) (fun _ _ => rfl) left right).trans
        Ordering.then_eq
    simp only [List.append_nil] at ends
    exact (List.compare_cons_cons.trans (congrArg _ (ends left right))).trans
      (by simp [Path.inner, isRootTrie])

theorem compare_eq_compare_walk (left right : Path) :
    compare left right = compare left.walk right.walk := by
  have first : ∀ (path : Path) step more, compare path.turn (some step :: more) = .lt := by
    rintro ⟨_ | key, nibbles⟩ step more <;> rfl
  have last : ∀ (path : Path) step more, compare (some step :: more) path.turn = .gt := by
    rintro ⟨_ | key, nibbles⟩ step more <;> rfl
  rw [compare_eq_lex, walk_eq_append, walk_eq_append,
    compare_map_some_append (first left) (last right), compare_turn]

theorem compare_eq_lt_of_ne {left right : Path} (order : (compare left right).isLE = true)
    (ne : left ≠ right) : compare left right = .lt := by
  rcases Ordering.isLE_iff_eq_lt_or_eq_eq.mp order with less | same
  · exact less
  · exact absurd (Std.LawfulEqOrd.eq_of_compare same) ne

theorem compare_of_covers {upper lower : Path} (covers : upper.Covers lower)
    (ne : upper ≠ lower) : compare upper lower = .lt := by
  obtain ⟨way, walk_eq⟩ := covers
  rw [compare_eq_compare_walk, ← walk_eq]
  refine compare_append_of_ne_nil _ ?_
  rintro rfl
  exact ne (walk_injective (by simpa using walk_eq))

theorem compare_of_covers_of_lt {upper lower other : Path} (covers : upper.Covers lower)
    (less : compare upper other = .lt) (apart : ¬ upper.Covers other) :
    compare lower other = .lt := by
  obtain ⟨way, walk_eq⟩ := covers
  rw [compare_eq_compare_walk] at less ⊢
  rw [← walk_eq]
  exact compare_append_of_not_prefix less apart way

end Path

end TrieSync
