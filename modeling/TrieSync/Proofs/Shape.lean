import Mathlib.Data.List.Flatten
import Mathlib.Data.List.Nodup
import TrieSync.Proofs.Lookup
import TrieSync.Proofs.Walk

namespace TrieSync

/-- A node refers to another one at its place and by its digest. -/
def PlacedNode.Refers (H : Hash) (upper lower : PlacedNode) : Prop :=
  ∃ link ∈ upper.node.children,
    upper.place ++ link.1 = lower.place ∧ link.2 = lower.node.digest H

/-- What a node is known by. -/
def PlacedNode.label (H : Hash) (placed : PlacedNode) : Nibbles × Digest :=
  (placed.place, placed.node.digest H)

/-- What a node refers to. -/
def PlacedNode.links (placed : PlacedNode) : List (Nibbles × Digest) :=
  placed.node.children.map fun (suffix, digest) => (placed.place ++ suffix, digest)

/-- The values in a node, under their keys. -/
def PlacedNode.held (placed : PlacedNode) : List (Nibbles × Bytes) :=
  placed.node.values.map fun (suffix, value) => (placed.place ++ suffix, value)

theorem Node.pairwise_children (node : Node) :
    node.children.Pairwise fun left right => ¬ left.1 <+: right.1 ∧ ¬ right.1 <+: left.1 := by
  cases node with
  | empty | leaf => exact .nil
  | extension key child => exact List.pairwise_singleton _ _
  | branch children value =>
      have distinct := List.pairwise_map.mp children.nodup_present
      refine List.pairwise_map.mpr (distinct.imp ?_)
      intro left right nibble_ne
      simp [List.cons_prefix_cons, nibble_ne, Ne.symm nibble_ne]

namespace Trie

variable {H : Hash} {place : Nibbles} {entries : List (Nibbles × Bytes)} {trie : Trie}
  {placed upper lower : PlacedNode} {nodes : List PlacedNode}

/-- Every node comes after those that it refers to. -/
inductive BottomUp (H : Hash) : List PlacedNode → Prop
  | nil : BottomUp H []
  | concat {nodes : List PlacedNode} {placed : PlacedNode} (below : BottomUp H nodes)
      (links : placed.links ⊆ nodes.map (PlacedNode.label H)) : BottomUp H (nodes ++ [placed])

namespace BottomUp

theorem append {more : List PlacedNode} (h : BottomUp H nodes) (h' : BottomUp H more) :
    BottomUp H (nodes ++ more) := by
  induction h' with
  | nil => rwa [List.append_nil]
  | concat _ links ih =>
      rw [← List.append_assoc]
      refine .concat ih (List.Subset.trans links ?_)
      rw [List.map_append]
      exact List.subset_append_right _ _

theorem flatMap {parts : List Part} (h : ∀ part ∈ parts, BottomUp H part.trie.nodes) :
    BottomUp H (parts.flatMap fun part => part.trie.nodes) := by
  induction parts with
  | nil => exact .nil
  | cons part parts ih =>
      rw [List.flatMap_cons]
      exact (h part List.mem_cons_self).append
        (ih fun other member => h other (List.mem_cons_of_mem _ member))

theorem links_subset {before after : List PlacedNode} (h : BottomUp H nodes)
    (nodes_eq : nodes = before ++ placed :: after) :
    placed.links ⊆ before.map (PlacedNode.label H) := by
  induction h generalizing after with
  | nil => simp at nodes_eq
  | @concat nodes last below links ih =>
      rcases List.eq_nil_or_concat after with rfl | ⟨rest, final, rfl⟩
      · obtain ⟨rfl, same⟩ := List.append_inj' nodes_eq rfl
        obtain rfl := List.singleton_inj.mp same
        exact links
      · rw [List.concat_eq_append, ← List.cons_append, ← List.append_assoc] at nodes_eq
        exact ih (List.append_inj' nodes_eq rfl).1

end BottomUp

namespace Built

theorem exists_nodes_eq (h : Built H place entries trie) :
    ∃ below node, trie.nodes = below ++ [⟨place, node⟩] ∧ node.digest H = trie.root := by
  cases h
  exact ⟨_, _, rfl, rfl⟩

theorem bottomUp (h : Built H place entries trie) : BottomUp H trie.nodes := by
  induction h with
  | @assemble place _ node parts _ children_eq _ _ built ih =>
      refine .concat (.flatMap ih) ?_
      intro link member
      rw [PlacedNode.links, children_eq, List.map_map] at member
      obtain ⟨part, part_mem, rfl⟩ := List.mem_map.mp member
      obtain ⟨lower, lower_mem, digest_eq⟩ := (built part part_mem).exists_top
      refine List.mem_map.mpr ⟨_, List.mem_flatMap.mpr ⟨part, part_mem, lower_mem⟩, ?_⟩
      simp [PlacedNode.label, digest_eq]

theorem isPrefix_place (h : Built H place entries trie) (member : placed ∈ trie.nodes) :
    place <+: placed.place := by
  induction h with
  | assemble parts _ _ _ _ _ ih =>
      rcases mem_nodes_iff.mp member with rfl | ⟨part, part_mem, member⟩
      · exact List.prefix_refl _
      · exact (List.prefix_append _ _).trans (ih part part_mem member)

theorem nodup_places (h : Built H place entries trie) :
    (trie.nodes.map PlacedNode.place).Nodup := by
  induction h with
  | @assemble place _ node parts _ children_eq suffix_ne _ built ih =>
      have apart : parts.Pairwise fun left right =>
          ¬ left.suffix <+: right.suffix ∧ ¬ right.suffix <+: left.suffix := by
        have pairwise := node.pairwise_children
        rw [children_eq] at pairwise
        exact List.pairwise_map.mp pairwise
      rw [top, List.map_append, List.map_flatMap]
      refine List.Nodup.append (List.nodup_flatMap.mpr ⟨ih, ?_⟩) (List.nodup_singleton _) ?_
      · refine apart.imp_of_mem ?_
        intro left right left_mem right_mem ways_apart other other_left other_right
        obtain ⟨placed, placed_mem, rfl⟩ := List.mem_map.mp other_left
        obtain ⟨same, same_mem, place_eq⟩ := List.mem_map.mp other_right
        have of_left := (built left left_mem).isPrefix_place placed_mem
        have of_right := (built right right_mem).isPrefix_place same_mem
        rw [place_eq] at of_right
        rcases List.prefix_or_prefix_of_prefix of_left of_right with way | way
        · exact ways_apart.1 ((List.prefix_append_right_inj _).mp way)
        · exact ways_apart.2 ((List.prefix_append_right_inj _).mp way)
      · intro other other_mem same
        obtain rfl := List.mem_singleton.mp same
        obtain ⟨part, part_mem, other_mem⟩ := List.mem_flatMap.mp other_mem
        obtain ⟨placed, placed_mem, place_eq⟩ := List.mem_map.mp other_mem
        have below := (built part part_mem).isPrefix_place placed_mem
        have length_le := below.length_le
        have positive := List.length_pos_iff.mpr (suffix_ne part part_mem)
        simp only [place_eq, List.length_append] at length_le
        omega

theorem links_perm (h : Built H place entries trie) :
    (trie.nodes.flatMap PlacedNode.links).Perm
      (trie.nodes.dropLast.map (PlacedNode.label H)) := by
  induction h with
  | @assemble place _ node parts _ children_eq _ _ built ih =>
      have part_perm (part : Part) (part_mem : part ∈ parts) :
          (part.trie.nodes.map (PlacedNode.label H)).Perm
            (part.trie.nodes.flatMap PlacedNode.links ++
              [(place ++ part.suffix, part.trie.root)]) := by
        obtain ⟨below, lower, nodes_eq, digest_eq⟩ := (built part part_mem).exists_nodes_eq
        have links_perm := ih part part_mem
        rw [nodes_eq] at links_perm ⊢
        rw [List.dropLast_concat] at links_perm
        rw [List.map_append, List.map_singleton]
        refine (links_perm.symm.append_right _).trans (.of_eq ?_)
        simp [PlacedNode.label, digest_eq]
      rw [top, List.dropLast_concat, List.flatMap_append, List.map_flatMap, List.flatMap_assoc]
      refine .trans ?_ (List.Perm.flatMap_left parts part_perm).symm
      refine .trans (.of_eq (congrArg (_ ++ ·) ?_)) (List.flatMap_append_perm _ _ _)
      rw [List.flatMap_singleton, PlacedNode.links, children_eq, List.map_map, List.map_eq_flatMap]
      rfl

theorem held_perm (h : Built H place entries trie) :
    (trie.nodes.flatMap PlacedNode.held).Perm
      (entries.map fun (key, value) => (place ++ key, value)) := by
  induction h with
  | @assemble place entries node parts _ _ _ perm _ ih =>
      have outer_perm : (parts.flatMap fun part => part.trie.nodes.flatMap PlacedNode.held).Perm
          ((parts.flatMap Part.outer).map fun (key, value) => (place ++ key, value)) := by
        rw [List.map_flatMap]
        refine List.Perm.flatMap_left parts fun part part_mem => ?_
        refine (ih part part_mem).trans (.of_eq ?_)
        simp [Part.outer, Function.comp_def]
      rw [top, List.flatMap_append, List.flatMap_assoc, List.flatMap_singleton]
      refine (outer_perm.append_right _).trans ?_
      refine List.perm_append_comm.trans ?_
      rw [PlacedNode.held, ← List.map_append]
      exact (perm.map _).symm

private theorem eq_of_mem_flatMap {α β : Type} {f : α → List β} {list : List α}
    (nodup : (list.flatMap f).Nodup) {left right : α} (left_mem : left ∈ list)
    (right_mem : right ∈ list) {item : β} (of_left : item ∈ f left) (of_right : item ∈ f right) :
    left = right := by
  have : Std.Symm (Function.onFun List.Disjoint f) :=
    ⟨fun _ _ apart _ of_right of_left => apart of_left of_right⟩
  by_contra distinct
  exact (List.nodup_flatMap.mp nodup).2.forall left_mem right_mem distinct of_left of_right

theorem ne_of_refers (h : Built H place entries trie) (member : upper ∈ trie.nodes)
    (refers : upper.Refers H lower) : upper ≠ lower := by
  rintro rfl
  obtain ⟨⟨suffix, digest⟩, link, place_eq, -⟩ := refers
  exact h.suffix_ne_nil member link (by simpa using place_eq)

theorem existsUnique_parent (h : Built H place entries trie)
    (member : lower ∈ trie.nodes.dropLast) :
    ∃! upper, upper ∈ trie.nodes ∧ upper ≠ lower ∧ upper.Refers H lower := by
  have refers_iff (upper : PlacedNode) :
      upper.Refers H lower ↔ lower.label H ∈ upper.links := by
    simp [PlacedNode.Refers, PlacedNode.links, PlacedNode.label]
  have nodup : (trie.nodes.flatMap PlacedNode.links).Nodup := by
    have distinct := h.nodup_places.sublist ((List.dropLast_sublist _).map _)
    rw [h.links_perm.nodup_iff]
    exact .of_map Prod.fst (by rwa [List.map_map])
  obtain ⟨upper, upper_mem, linked⟩ :=
    List.mem_flatMap.mp (h.links_perm.mem_iff.mpr (List.mem_map_of_mem member))
  have refers := (refers_iff upper).mpr linked
  refine ⟨upper, ⟨upper_mem, h.ne_of_refers upper_mem refers, refers⟩, ?_⟩
  rintro other ⟨other_mem, -, refers⟩
  exact eq_of_mem_flatMap nodup other_mem upper_mem ((refers_iff other).mp refers) linked

theorem existsUnique_holder (h : Built H place entries trie)
    (distinct : entries.Pairwise fun left right => left.1 ≠ right.1) {key : Nibbles} {value : Bytes}
    (entry : (key, value) ∈ entries) :
    ∃! placed, placed ∈ trie.nodes ∧ (place ++ key, value) ∈ placed.held := by
  have nodup : (trie.nodes.flatMap PlacedNode.held).Nodup := by
    rw [h.held_perm.nodup_iff]
    refine .of_map Prod.fst ?_
    rw [List.map_map]
    exact List.pairwise_map.mpr (distinct.imp fun keys_ne => by simpa using keys_ne)
  obtain ⟨placed, placed_mem, held⟩ :=
    List.mem_flatMap.mp (h.held_perm.mem_iff.mpr (List.mem_map_of_mem entry))
  refine ⟨placed, ⟨placed_mem, held⟩, ?_⟩
  rintro other ⟨other_mem, held'⟩
  exact eq_of_mem_flatMap nodup other_mem placed_mem held' held

end Built

section shape

/-- A node is one that a trie without needless nodes may have: a branch leads on in two ways at
least and holds no value, and an extension leads to a branch. -/
inductive Shaped (H : Hash) (nodes : List PlacedNode) : PlacedNode → Prop
  | leaf {place key : Nibbles} {value : Bytes} : Shaped H nodes ⟨place, .leaf key value⟩
  | branch {place : Nibbles} {children : Children} (two_le : 2 ≤ children.present.length) :
      Shaped H nodes ⟨place, .branch children none⟩
  | extension {place key : Nibbles} {children : Children} {value : Option Bytes} (key_ne : key ≠ [])
      (below : ⟨place ++ key, .branch children value⟩ ∈ nodes) :
      Shaped H nodes ⟨place, .extension key (Node.digest H (.branch children value))⟩

theorem Shaped.mono {more : List PlacedNode} (h : Shaped H nodes placed) (subset : nodes ⊆ more) :
    Shaped H more placed := by
  cases h with
  | leaf => exact .leaf
  | branch two_le => exact .branch two_le
  | extension key_ne below => exact .extension key_ne (subset below)

theorem exists_under_ne {length : Nat} (keyed : Keyed (length + 1) entries)
    (entries_ne : entries ≠ []) (shared_eq : sharedPrefix entries = []) :
    ∃ left right, left ≠ right ∧ under left entries ≠ [] ∧ under right entries ≠ [] := by
  have exists_cons {entry : Nibbles × Bytes} (member : entry ∈ entries) :
      ∃ nibble, under nibble entries ≠ [] ∧ [nibble] <+: entry.1 := by
    obtain ⟨key, value⟩ := entry
    cases key with
    | nil => cases keyed.length_eq _ member
    | cons nibble rest =>
        exact ⟨nibble, List.ne_nil_of_mem (mem_under_iff.mpr member), rest, rfl⟩
  obtain ⟨first, first_mem⟩ := List.exists_mem_of_ne_nil _ entries_ne
  obtain ⟨left, left_ne, -⟩ := exists_cons first_mem
  by_contra alike
  have begins : ∀ entry ∈ entries, [left] <+: entry.1 := by
    intro entry member
    obtain ⟨right, right_ne, begins⟩ := exists_cons member
    obtain rfl : left = right := by
      by_contra distinct
      exact alike ⟨left, right, distinct, left_ne, right_ne⟩
    exact begins
  have shared := isPrefix_sharedPrefix entries_ne begins
  simp [shared_eq] at shared

theorem two_le_length_present {length : Nat} (keyed : Keyed (length + 1) entries)
    (entries_ne : entries ≠ []) (shared_eq : sharedPrefix entries = []) (root : Nibble → Digest) :
    2 ≤ (Children.present (.ofFn fun nibble =>
      if under nibble entries = [] then none else some (root nibble))).length := by
  obtain ⟨left, right, distinct, left_ne, right_ne⟩ := exists_under_ne keyed entries_ne shared_eq
  generalize children_eq : Vector.ofFn (fun nibble : Nibble =>
    if under nibble entries = [] then none else some (root nibble)) = children
  have present {nibble : Nibble} (part_ne : under nibble entries ≠ []) :
      (nibble, root nibble) ∈ Children.present children := by
    rw [Children.mem_present_iff, ← children_eq, Children.get_ofFn, if_neg part_ne]
  have pair_nodup : [(left, root left), (right, root right)].Nodup := by
    simp [distinct]
  refine (List.subperm_of_subset pair_nodup ?_).length_le
  simp [present left_ne, present right_ne]

private theorem shaped_and_branch_ofSuffixes {height length : Nat} (H : Hash) (place : Nibbles)
    (keyed : Keyed length entries) (entries_ne : entries ≠ []) (length_le : length ≤ height) :
    (∀ placed ∈ (ofSuffixes H height place entries).nodes,
      Shaped H (ofSuffixes H height place entries).nodes placed) ∧
    (2 ≤ entries.length → sharedPrefix entries = [] → ∃ children below,
      ofSuffixes H height place entries = top H place (.branch children none) below) := by
  refine ofSuffixes_induction (motive := fun _ place entries trie =>
    (∀ placed ∈ trie.nodes, Shaped H trie.nodes placed) ∧
      (2 ≤ entries.length → sharedPrefix entries = [] →
        ∃ children below, trie = top H place (.branch children none) below))
    ?_ ?_ ?_ place keyed entries_ne length_le
  · intro height place key value
    refine ⟨fun placed member => ?_, by simp⟩
    obtain rfl := List.mem_singleton.mp member
    exact .leaf
  · intro height length place entries keyed two_le shared_eq below
    refine ⟨fun placed member => ?_, fun _ _ => ⟨_, _, rfl⟩⟩
    rcases Built.mem_nodes_iff.mp member with rfl | ⟨part, part_mem, member⟩
    · exact .branch (two_le_length_present keyed
        (List.ne_nil_of_length_pos (by omega)) shared_eq _)
    · obtain ⟨nibble, part_ne, rfl⟩ := mem_parts_iff.mp part_mem
      exact ((below nibble part_ne).1 placed member).mono fun lower lower_mem =>
        Built.mem_nodes_iff.mpr (.inr ⟨_, part_mem, lower_mem⟩)
  · intro height place entries rest trie shared_ne entries_eq two_le rest_shared below
    refine ⟨fun placed member => ?_, fun _ shared_eq => absurd shared_eq shared_ne⟩
    obtain ⟨shaped, on_top⟩ := below
    obtain ⟨children, nodes, rfl⟩ := on_top two_le rest_shared
    rcases List.mem_append.mp member with member | member
    · exact (shaped placed member).mono (List.subset_append_left _ _)
    · obtain rfl := List.mem_singleton.mp member
      exact .extension shared_ne
        (List.mem_append_left _ (List.mem_append_right _ List.mem_cons_self))

theorem shaped_ofSuffixes {height length : Nat} (H : Hash) (place : Nibbles)
    (keyed : Keyed length entries) (entries_ne : entries ≠ []) (length_le : length ≤ height) :
    ∀ placed ∈ (ofSuffixes H height place entries).nodes,
      Shaped H (ofSuffixes H height place entries).nodes placed :=
  (shaped_and_branch_ofSuffixes H place keyed entries_ne length_le).1

end shape

end Trie

end TrieSync
