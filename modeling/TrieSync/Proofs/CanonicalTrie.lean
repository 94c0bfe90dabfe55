import TrieSync.Proofs.Commitment
import TrieSync.Proofs.Slicing

namespace TrieSync

namespace Trie

variable {H : Hash} {entries : Std.TreeMap Digest Bytes} {trie : Trie} {placed : PlacedNode}
  {nodes : List PlacedNode}

/-- The nodes of a trie are written from the bottom up and once each, and none of them is there
without need. -/
structure Canonical (H : Hash) (entries : Std.TreeMap Digest Bytes) (trie : Trie) : Prop where
  nodup_places : (trie.nodes.map PlacedNode.place).Nodup
  decodes : ∀ placed ∈ trie.nodes, ∃ bytes, placed.node.encode? = some bytes ∧
    H bytes = placed.node.digest H ∧ Node.decode bytes = .ok placed.node
  children_first : ∀ {before placed after}, trie.nodes = before ++ placed :: after →
    ∀ link ∈ placed.node.children, ∃ lower ∈ before,
      lower.place = placed.place ++ link.1 ∧ lower.node.digest H = link.2
  parent : ∀ lower ∈ trie.nodes.dropLast,
    ∃! upper, upper ∈ trie.nodes ∧ upper ≠ lower ∧ upper.Refers H lower
  last : ∃ node, trie.nodes.getLast? = some ⟨[], node⟩ ∧ node.digest H = trie.root
  ne_empty : ∀ placed ∈ trie.nodes, placed.node ≠ .empty
  leaf : ∀ {place key value}, ⟨place, .leaf key value⟩ ∈ trie.nodes →
    ∃ full : Digest, full.nibbles = place ++ key ∧ entries[full]? = some value
  holder : ∀ full : Digest, full ∈ entries → ∃! placed, placed ∈ trie.nodes ∧
    ∃ key value, placed.node = .leaf key value ∧ placed.place ++ key = full.nibbles
  branch : ∀ {place children value}, ⟨place, .branch children value⟩ ∈ trie.nodes →
    2 ≤ children.present.length ∧ value = none
  extension : ∀ {place key child}, ⟨place, .extension key child⟩ ∈ trie.nodes → key ≠ [] ∧
    ∃ children value, ⟨place ++ key, .branch children value⟩ ∈ trie.nodes ∧
      Node.digest H (.branch children value) = child

theorem Shaped.mem_held_iff (h : Shaped H nodes placed) {full : Nibbles} {value : Bytes} :
    (full, value) ∈ placed.held ↔
      ∃ key, placed.node = .leaf key value ∧ placed.place ++ key = full := by
  cases h with
  | leaf =>
      simp only [PlacedNode.held, Node.values, List.map_singleton, List.mem_singleton,
        Prod.mk.injEq, Node.leaf.injEq]
      constructor
      · rintro ⟨rfl, rfl⟩
        exact ⟨_, ⟨rfl, rfl⟩, rfl⟩
      · rintro ⟨_, ⟨rfl, rfl⟩, rfl⟩
        exact ⟨rfl, rfl⟩
  | branch => simp [PlacedNode.held, Node.values]
  | extension => simp [PlacedNode.held, Node.values]

private theorem exists_full {key : Nibbles} {value : Bytes}
    (member : (key, value) ∈ entries.toList.map fun (key, value) => (key.nibbles, value)) :
    ∃ full : Digest, full.nibbles = key ∧ entries[full]? = some value := by
  obtain ⟨⟨full, _⟩, entry_mem, same⟩ := List.mem_map.mp member
  obtain ⟨rfl, rfl⟩ := Prod.mk.inj same
  exact ⟨full, rfl, Std.TreeMap.mem_toList_iff_getElem?_eq_some.mp entry_mem⟩

theorem canonical_ofMap (H : Hash) (nonempty : entries.toList ≠ []) (short : ShortValues entries) :
    Canonical H entries (ofMap H entries) := by
  have built := built_ofMap H nonempty
  have shaped : ∀ placed ∈ (ofMap H entries).nodes, Shaped H (ofMap H entries).nodes placed :=
    shaped_ofSuffixes H [] (keyed_ofMap entries) (by simpa using nonempty) (Nat.le_refl _)
  have leaf {place key : Nibbles} {value : Bytes}
      (member : ⟨place, .leaf key value⟩ ∈ (ofMap H entries).nodes) :
      ∃ full : Digest, full.nibbles = place ++ key ∧ entries[full]? = some value := by
    obtain ⟨_, entry_mem, rfl⟩ := built.exists_entry member List.mem_cons_self
    exact exists_full entry_mem
  refine ⟨built.nodup_places, ?_, ?_, fun lower => built.existsUnique_parent, ?_,
    fun placed => built.ne_empty, leaf, ?_, ?_, ?_⟩
  · intro placed member
    have encodable := encodable_ofMap H short placed member
    exact ⟨placed.node.encode, if_pos encodable, rfl,
      Node.decode_eq_ok_iff.mpr ⟨built.wellFormed member encodable, rfl⟩⟩
  · intro before placed after nodes_eq link link_mem
    have linked : (placed.place ++ link.1, link.2) ∈ placed.links := List.mem_map_of_mem link_mem
    obtain ⟨lower, lower_mem, label_eq⟩ :=
      List.mem_map.mp (built.bottomUp.links_subset nodes_eq linked)
    obtain ⟨place_eq, digest_eq⟩ := Prod.mk.inj label_eq
    exact ⟨lower, lower_mem, place_eq, digest_eq⟩
  · obtain ⟨below, node, nodes_eq, digest_eq⟩ := built.exists_nodes_eq
    exact ⟨node, by rw [nodes_eq, List.getLast?_concat], digest_eq⟩
  · intro full full_mem
    obtain ⟨value, found⟩ := Option.isSome_iff_exists.mp
      (Std.TreeMap.mem_iff_isSome_getElem?.mp full_mem)
    have entry_mem := List.mem_map_of_mem (f := fun entry : Digest × Bytes =>
      (entry.1.nibbles, entry.2)) (Std.TreeMap.mem_toList_iff_getElem?_eq_some.mpr found)
    obtain ⟨holder, ⟨holder_mem, held⟩, unique⟩ :=
      built.existsUnique_holder (keyed_ofMap entries).distinct entry_mem
    obtain ⟨key, node_eq, full_eq⟩ := (shaped holder holder_mem).mem_held_iff.mp held
    refine ⟨holder, ⟨holder_mem, key, value, node_eq, full_eq⟩, ?_⟩
    rintro ⟨place, _⟩ ⟨other_mem, key, value', rfl, full_eq⟩
    obtain ⟨same, same_eq, found'⟩ := leaf other_mem
    obtain rfl := Digest.nibbles_injective (same_eq.trans full_eq)
    obtain rfl := Option.some.inj (found.symm.trans found')
    exact unique _ ⟨other_mem, (shaped _ other_mem).mem_held_iff.mpr ⟨key, rfl, full_eq⟩⟩
  · intro place children value member
    cases shaped _ member with
    | branch two_le => exact ⟨two_le, rfl⟩
  · intro place key child member
    cases shaped _ member with
    | extension key_ne below => exact ⟨key_ne, _, _, below, rfl⟩

/-- Every map that is not empty is built as a trie without anything needless in it. -/
theorem canonical_build (H : Hash) (nonempty : entries.isEmpty = false)
    (short : ShortValues entries) :
    ∃ trie, ofMap? H entries = some trie ∧ build? H entries = some trie ∧
      Canonical H entries trie := by
  have trie_eq := ofMap?_eq_some H short
  refine ⟨ofMap H entries, trie_eq, (build?_eq H entries).trans trie_eq, canonical_ofMap H ?_ short⟩
  rwa [ne_eq, ← List.isEmpty_iff, Std.TreeMap.isEmpty_toList, Bool.not_eq_true]

end Trie

namespace ThreeKeys

open Session.SharedLeaf (key)

/-- The two keys that part after one nibble. -/
def paired : Std.TreeMap Digest Bytes :=
  entries.erase (key 0x31)

/-- The two leaves come first, then the branch between them and the extension that leads to it. -/
theorem canonical_build_paired :
    paired.isEmpty = false ∧ Trie.ShortValues paired ∧
      ∃ trie, Trie.ofMap? quickHash paired = some trie ∧ Trie.build? quickHash paired = some trie ∧
        Trie.Canonical quickHash paired trie ∧
        trie.nodes.map PlacedNode.place = [[1, 1], [1, 2], [1], []] := by
  have short : Trie.ShortValues paired := by
    intro other value found
    rw [paired, Entries.getElem?_erase, Option.ite_none_left_eq_some] at found
    exact shortValues other value found.2
  obtain ⟨nonempty, places⟩ : paired.isEmpty = false ∧
      (Trie.ofMap? quickHash paired).map (fun trie => trie.nodes.map PlacedNode.place) =
        some [[1, 1], [1, 2], [1], []] := by
    decide +kernel
  obtain ⟨trie, made, built, canonical⟩ := Trie.canonical_build quickHash nonempty short
  rw [made] at places
  exact ⟨nonempty, short, trie, made, built, canonical, Option.some.inj places⟩

end ThreeKeys

end TrieSync
