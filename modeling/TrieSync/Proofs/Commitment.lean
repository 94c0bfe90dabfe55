import TrieSync.Proofs.AccountSync
import TrieSync.Proofs.Lookup

namespace TrieSync

namespace Trie

variable {H : Hash} {place other : Nibbles} {entries : List (Nibbles × Bytes)} {trie : Trie}
  {node : Node}

theorem Built.encodable (h : Built H place entries trie)
    (short : ∀ entry ∈ entries, entry.1.length ≤ 255 ∧ entry.2.length < UInt32.size)
    (member : ⟨other, node⟩ ∈ trie.nodes) : node.Encodable := by
  induction h with
  | @assemble place entries top_node parts entries_ne children_eq suffix_ne perm built ih =>
      have short_values : ∀ entry ∈ top_node.values,
          entry.1.length ≤ 255 ∧ entry.2.length < UInt32.size := fun entry held =>
        short entry (perm.mem_iff.mpr (List.mem_append_left _ held))
      have short_parts {part : Part} (part_mem : part ∈ parts) {entry : Nibbles × Bytes}
          (entry_mem : entry ∈ part.entries) :
          part.suffix.length + entry.1.length ≤ 255 ∧ entry.2.length < UInt32.size := by
        have outer_mem := perm.mem_iff.mpr (List.mem_append_right _
          (List.mem_flatMap.mpr ⟨part, part_mem, List.mem_map_of_mem entry_mem⟩))
        simpa using short _ outer_mem
      rcases List.mem_append.mp member with below | on_top
      · obtain ⟨part, part_mem, below⟩ := List.mem_flatMap.mp below
        refine ih part part_mem (fun entry entry_mem => ?_) below
        obtain ⟨key_short, value_short⟩ := short_parts part_mem entry_mem
        exact ⟨by omega, value_short⟩
      · obtain ⟨rfl, rfl⟩ := PlacedNode.mk.inj (List.mem_singleton.mp on_top)
        cases node with
        | empty => trivial
        | leaf key value => exact short_values (key, value) List.mem_cons_self
        | extension key child =>
            obtain ⟨part, rfl, same⟩ := List.map_eq_singleton_iff.mp children_eq.symm
            obtain ⟨rfl, -⟩ := Prod.mk.inj same
            obtain ⟨entry, entry_mem⟩ := List.exists_mem_of_ne_nil _
              (built part List.mem_cons_self).entries_ne
            have key_short := (short_parts List.mem_cons_self entry_mem).1
            exact (Nat.le_add_right _ _).trans key_short
        | branch children value =>
            intro bytes held
            obtain rfl := Option.mem_def.mp held
            exact (short_values ([], bytes) (by simp [Node.values])).2

/-- No value is too long to be encoded. -/
def ShortValues (entries : Std.TreeMap Digest Bytes) : Prop :=
  ∀ (key : Digest) value, entries[key]? = some value → value.length < UInt32.size

theorem encodable_ofMap (H : Hash) {entries : Std.TreeMap Digest Bytes}
    (short : ShortValues entries) : ∀ placed ∈ (ofMap H entries).nodes, placed.node.Encodable := by
  rintro ⟨other, node⟩ member
  by_cases empty : entries.toList = []
  · simp [ofMap_of_isEmpty empty, Trie.empty] at member
  · refine (built_ofMap H empty).encodable (fun entry entry_mem => ?_) member
    obtain ⟨⟨key, value⟩, held, rfl⟩ := List.mem_map.mp entry_mem
    refine ⟨?_, short key value (Std.TreeMap.mem_toList_iff_getElem?_eq_some.mp held)⟩
    simp [Digest.keyLength]

theorem ofMap?_eq_some (H : Hash) {entries : Std.TreeMap Digest Bytes}
    (short : ShortValues entries) : ofMap? H entries = some (ofMap H entries) :=
  if_pos (encodable_ofMap H short)

end Trie

/-- Different nodes among the given ones have different digests. -/
def Node.Collisionless (H : Hash) (nodes : List Node) : Prop :=
  ∀ left ∈ nodes, ∀ right ∈ nodes, left.digest H = right.digest H → left.encode = right.encode

instance (H : Hash) (nodes : List Node) : Decidable (Node.Collisionless H nodes) :=
  inferInstanceAs (Decidable (∀ left ∈ nodes, ∀ right ∈ nodes, _ → _))

theorem Node.Collisionless.mono {H : Hash} {nodes fewer : List Node} (h : Collisionless H nodes)
    (subset : ∀ node ∈ fewer, node ∈ nodes) : Collisionless H fewer :=
  fun left left_mem right right_mem => h left (subset left left_mem) right (subset right right_mem)

/-- The nodes of tries, and the empty node. -/
def Trie.involved (tries : List Trie) : List Node :=
  .empty :: tries.flatMap fun trie => trie.nodes.map PlacedNode.node

namespace Store

variable {H : Hash} {store : Store} {owner : Owner} {tries : List Trie}
  {entries : Std.TreeMap Digest Bytes}

private theorem node?_putAll (unheld : ∀ occurrence, store.hasNode occurrence = false)
    (collisionless : Node.Collisionless H (Trie.involved tries)) {trie : Trie}
    (trie_mem : trie ∈ tries) {place : Nibbles} {node : Node}
    (member : ⟨place, node⟩ ∈ trie.nodes) :
    (store.putAll (tries.flatMap fun trie => trie.puts H owner)).node?
      ⟨⟨owner, place⟩, node.digest H⟩ = some node.encode := by
  have involved_mem {trie : Trie} {placed : PlacedNode} (trie_mem : trie ∈ tries)
      (member : placed ∈ trie.nodes) : placed.node ∈ Trie.involved tries :=
    List.mem_cons_of_mem _ (List.mem_flatMap.mpr ⟨trie, trie_mem, List.mem_map_of_mem member⟩)
  have put_mem : .node ⟨⟨owner, place⟩, node.digest H⟩ node.encode ∈
      tries.flatMap fun trie => trie.puts H owner :=
    List.mem_flatMap.mpr ⟨trie, trie_mem, List.mem_map.mpr ⟨_, member, rfl⟩⟩
  have held := (hasNode_putAll store _ _).mpr (.inr ⟨_, _, put_mem, rfl⟩)
  rw [hasNode_eq_isSome_node?] at held
  obtain ⟨bytes, found⟩ := Option.isSome_iff_exists.mp held
  rw [found]
  rw [node?, key_putAll] at found
  rcases getElem?_nodes_putAll found with before | ⟨occurrence, put_mem, key_eq⟩
  · have absent := unheld ⟨⟨owner, place⟩, node.digest H⟩
    rw [hasNode_eq_isSome_node?, node?, before] at absent
    simp at absent
  · obtain ⟨written, written_mem, put_mem⟩ := List.mem_flatMap.mp put_mem
    obtain ⟨placed, placed_mem, put_eq⟩ := List.mem_map.mp put_mem
    obtain ⟨rfl, rfl⟩ := Put.node.inj put_eq
    refine congrArg some (collisionless _ (involved_mem written_mem placed_mem) _
      (involved_mem trie_mem member) ?_)
    exact digest_eq_of_key_eq key_eq

private theorem shows_putAll (unheld : ∀ occurrence, store.hasNode occurrence = false)
    (owner : Owner) (maps : List (Std.TreeMap Digest Bytes compare))
    (collisionless : Node.Collisionless H (Trie.involved (maps.map (Trie.ofMap H))))
    (map_mem : entries ∈ maps) (short : Trie.ShortValues entries) :
    Shows H (store.putAll ((maps.map (Trie.ofMap H)).flatMap fun trie => trie.puts H owner)) owner
      (Trie.ofMap H entries) := by
  have trie_mem : Trie.ofMap H entries ∈ maps.map (Trie.ofMap H) := List.mem_map_of_mem map_mem
  have encodable {place : Nibbles} {node : Node}
      (member : ⟨place, node⟩ ∈ (Trie.ofMap H entries).nodes) : node.Encodable :=
    Trie.encodable_ofMap H short _ member
  refine ⟨fun member => ?_, encodable, fun {place node} member digest_eq => ?_⟩
  · rw [readNode, node?_putAll unheld collisionless trie_mem member]
    exact if_pos rfl
  · have nonempty : entries.toList ≠ [] := by
      intro empty
      simp [Trie.ofMap_of_isEmpty empty, Trie.empty] at member
    have built := Trie.built_ofMap H nonempty
    have involved_mem : node ∈ Trie.involved (maps.map (Trie.ofMap H)) :=
      List.mem_cons_of_mem _ (List.mem_flatMap.mpr
        ⟨_, trie_mem, List.mem_map_of_mem (f := PlacedNode.node) member⟩)
    have encode_eq := collisionless _ involved_mem _ List.mem_cons_self digest_eq
    exact built.ne_empty member (Node.encode_injective (built.wellFormed member (encodable member))
      trivial encode_eq)

/-- A map that is written as a trie to a store without nodes is read back from it, key by key. -/
theorem get_of_written (unheld : ∀ occurrence, store.hasNode occurrence = false)
    (accepting : store.rejecting = false)
    (short : Trie.ShortValues entries)
    (collisionless : Node.Collisionless H (Trie.involved [Trie.ofMap H entries])) (owner : Owner) :
    ∃ trie written, Trie.ofMap? H entries = some trie ∧
      store.write (Batch.empty.append (trie.puts H owner)) = .ok written ∧
      ∀ key, written.get H owner trie.root key = .ok entries[key]? := by
  refine ⟨Trie.ofMap H entries, store.putAll ((Trie.ofMap H entries).puts H owner),
    Trie.ofMap?_eq_some H short, ?_, fun key => get_of_shows ?_ key⟩
  · rw [write, accepting]
    rfl
  · simpa using shows_putAll unheld owner [entries] collisionless
      List.mem_cons_self short

end Store

namespace ThreeKeys

open Session.SharedLeaf (key)

/-- Two keys that part after one nibble, one that parts from them at once, and an empty value. -/
def entries : Std.TreeMap Digest Bytes :=
  .ofList [(key 0x11, ([1] : Bytes)), (key 0x12, []), (key 0x31, [2])]

theorem shortValues : Trie.ShortValues entries := by
  have all_short : ∀ entry ∈ entries.toList, entry.2.length < UInt32.size := by decide +kernel
  exact fun _ _ found => all_short _ (Std.TreeMap.mem_toList_iff_getElem?_eq_some.mpr found)

theorem get_of_written_entries :
    (∀ occurrence, (Store.empty .byPath).hasNode occurrence = false) ∧
      (Store.empty .byPath).rejecting = false ∧ Trie.ShortValues entries ∧
      Node.Collisionless quickHash (Trie.involved [Trie.ofMap quickHash entries]) ∧
      ∃ trie written, Trie.ofMap? quickHash entries = some trie ∧
        (Store.empty .byPath).write
          (Batch.empty.append (trie.puts quickHash (.account (key 0xa0)))) = .ok written ∧
        written.get quickHash (.account (key 0xa0)) trie.root (key 0x12) = .ok (some []) ∧
        written.get quickHash (.account (key 0xa0)) trie.root (key 0x32) = .ok none := by
  have collisionless :
      Node.Collisionless quickHash (Trie.involved [Trie.ofMap quickHash entries]) := by
    decide +kernel
  obtain ⟨trie, written, trie_eq, written_eq, found⟩ := Store.get_of_written
    (Store.hasNode_empty .byPath) rfl shortValues collisionless (.account (key 0xa0))
  obtain ⟨present, absent⟩ : entries[key 0x12]? = some [] ∧ entries[key 0x32]? = none := by
    decide +kernel
  exact ⟨Store.hasNode_empty .byPath, rfl, shortValues, collisionless, trie, written, trie_eq,
    written_eq, present ▸ found (key 0x12), absent ▸ found (key 0x32)⟩

end ThreeKeys

namespace Trie

variable {H : Hash} {left right : Std.TreeMap Digest Bytes}

private theorem root_ofMap_eq_iff
    (left_short : ShortValues left) (right_short : ShortValues right)
    (collisionless : Node.Collisionless H (involved [ofMap H left, ofMap H right])) :
    (ofMap H left).root = (ofMap H right).root ↔ ∀ key : Digest, left[key]? = right[key]? := by
  constructor
  · intro root_eq key
    -- both tries fit into one store, where a lookup from the one root finds what both maps hold
    have unheld := Store.hasNode_empty .byDigest
    have left_found := Store.get_of_shows (Store.shows_putAll unheld .root [left, right]
      collisionless List.mem_cons_self left_short) key
    have right_found := Store.get_of_shows (Store.shows_putAll unheld .root [left, right]
      collisionless (List.mem_cons_of_mem _ List.mem_cons_self) right_short) key
    rw [root_eq, right_found] at left_found
    exact (Except.ok.inj left_found).symm
  · intro same
    have toList_eq : left.toList = right.toList :=
      Entries.toList_eq_of_getElem?_eq fun key value => by rw [same key]
    rw [ofMap, ofMap, toList_eq]

/-- The root of a trie commits to the map, and only that of an empty map is the empty root. -/
theorem root_eq_iff
    (left_short : ShortValues left) (right_short : ShortValues right)
    (collisionless : Node.Collisionless H (involved [ofMap H left, ofMap H right])) :
    ∃ first second, ofMap? H left = some first ∧ ofMap? H right = some second ∧
      (first.root = second.root ↔ ∀ key : Digest, left[key]? = right[key]?) ∧
      (left.isEmpty = false → first.root ≠ emptyRoot H) := by
  refine ⟨_, _, ofMap?_eq_some H left_short, ofMap?_eq_some H right_short,
    root_ofMap_eq_iff left_short right_short collisionless, fun nonempty root_eq => ?_⟩
  -- the empty root is the root of the empty map, whose trie adds no node
  have empty_root : (ofMap H ∅).root = emptyRoot H := by
    rw [ofMap_of_isEmpty Entries.toList_empty, empty]
  have fewer : ∀ node ∈ involved [ofMap H left, ofMap H ∅],
      node ∈ involved [ofMap H left, ofMap H right] := by
    intro node member
    simp only [involved, ofMap_of_isEmpty Entries.toList_empty, empty, List.flatMap_cons,
      List.flatMap_nil, List.map_nil, List.append_nil] at member ⊢
    exact List.cons_subset_cons _ (List.subset_append_left _ _) member
  have empty_short : ShortValues ∅ := fun _ _ found => by simp at found
  have same := (root_ofMap_eq_iff left_short empty_short (collisionless.mono fewer)).mp
    (root_eq.trans empty_root.symm)
  obtain ⟨key, key_mem⟩ := Std.TreeMap.isEmpty_eq_false_iff_exists_mem.mp nonempty
  rw [Std.TreeMap.mem_iff_isSome_getElem?, same key] at key_mem
  simp at key_mem

end Trie

namespace ThreeKeys

open Session.SharedLeaf (key)

/-- The same keys, one of them with another value. -/
def changed : Std.TreeMap Digest Bytes :=
  entries.insert (key 0x12) [3]

theorem root_eq_iff_changed :
    Trie.ShortValues entries ∧ Trie.ShortValues changed ∧
      Node.Collisionless quickHash
        (Trie.involved [Trie.ofMap quickHash entries, Trie.ofMap quickHash changed]) ∧
      ∃ first second, Trie.ofMap? quickHash entries = some first ∧
        Trie.ofMap? quickHash changed = some second ∧
        first.root ≠ second.root ∧ first.root ≠ emptyRoot quickHash := by
  have short : Trie.ShortValues changed := by
    intro other value found
    rw [changed, Entries.getElem?_insert] at found
    split at found
    · rw [← Option.some.inj found]
      decide
    · exact shortValues other value found
  have collisionless : Node.Collisionless quickHash
      (Trie.involved [Trie.ofMap quickHash entries, Trie.ofMap quickHash changed]) := by
    decide +kernel
  obtain ⟨first, second, first_eq, second_eq, root_iff, root_ne⟩ :=
    Trie.root_eq_iff shortValues short collisionless
  obtain ⟨nonempty, differ⟩ : entries.isEmpty = false ∧
      entries[key 0x12]? ≠ changed[key 0x12]? := by
    decide +kernel
  exact ⟨shortValues, short, collisionless, first, second, first_eq, second_eq,
    fun root_eq => differ (root_iff.mp root_eq _), root_ne nonempty⟩

end ThreeKeys

end TrieSync
