import TrieSync.Proofs.Building
import TrieSync.Proofs.Walk
import TrieSync.Store.Lookup

namespace TrieSync

theorem Children.mem_present_iff {children : Children} {nibble : Nibble} {child : Digest} :
    (nibble, child) ∈ children.present ↔ children.get nibble = some child := by
  simp only [present, List.mem_filterMap, Option.map_eq_some_iff, Prod.mk.injEq]
  constructor
  · rintro ⟨_, -, _, found, rfl, rfl⟩
    exact found
  · exact fun found => ⟨nibble, List.mem_finRange _, child, found, rfl, rfl⟩

theorem Node.mem_children_branch_iff {children : Children} {value : Option Bytes} {suffix : Nibbles}
    {child : Digest} : (suffix, child) ∈ (branch children value).children ↔
      ∃ nibble, suffix = [nibble] ∧ children.get nibble = some child := by
  simp only [Node.children, List.mem_map, Prod.mk.injEq, Prod.exists, Children.mem_present_iff]
  constructor
  · rintro ⟨nibble, _, found, rfl, rfl⟩
    exact ⟨nibble, rfl, found⟩
  · rintro ⟨nibble, rfl, found⟩
    exact ⟨nibble, child, found, rfl, rfl⟩

namespace Store

variable {H : Hash} {store : Store} {owner : Owner} {place rest taken pending : Nibbles}
  {digest : Digest} {bytes : Bytes} {node : Node} {entries : List (Nibbles × Bytes)} {trie : Trie}

private theorem descend_cons_cons (nibble first : Nibble) (rest taken pending : Nibbles)
    (digest : Digest) :
    store.descend H owner (nibble :: rest) taken (first :: pending) digest =
      if nibble = first then store.descend H owner rest (taken ++ [nibble]) pending digest
      else .absent := by
  rw [descend]

theorem descend_append (pending rest taken : Nibbles) (digest : Digest) :
    store.descend H owner (pending ++ rest) taken pending digest =
      store.descend H owner rest (taken ++ pending) [] digest := by
  induction pending generalizing taken with
  | nil => simp
  | cons first pending ih =>
      rw [List.cons_append, descend_cons_cons, if_pos rfl, ih, List.append_assoc,
        List.singleton_append]

theorem descend_of_not_isPrefix (pending_not : ¬ pending <+: rest) :
    store.descend H owner rest taken pending digest = .absent := by
  induction rest generalizing taken pending with
  | nil =>
      cases pending with
      | nil => exact absurd List.nil_prefix pending_not
      | cons first pending => rw [descend]
  | cons nibble rest ih =>
      cases pending with
      | nil => exact absurd List.nil_prefix pending_not
      | cons first pending =>
          rw [descend_cons_cons]
          split
          · rename_i same
            refine ih fun below => pending_not ?_
            rw [same, List.cons_prefix_cons]
            exact ⟨rfl, below⟩
          · rfl

/-- How a lookup goes on from a node that it has read. -/
def follow (store : Store) (H : Hash) (owner : Owner) (rest taken : Nibbles) : Node → Lookup
  | .empty => .absent
  | .leaf key value => if key = rest then .found (some value) else .absent
  | .extension key child => store.descend H owner rest taken key child
  | .branch children value =>
      match rest with
      | [] => .found value
      | nibble :: rest =>
          match children.get nibble with
          | none => .absent
          | some child => store.descend H owner rest (taken ++ [nibble]) [] child

theorem descend_eq_follow (digest_ne : digest ≠ emptyRoot H)
    (read : store.readNode H ⟨⟨owner, taken⟩, digest⟩ = .ok bytes)
    (decoded : Node.decode bytes = .ok node) :
    store.descend H owner rest taken [] digest =
      .after ⟨⟨owner, taken⟩, digest⟩ (store.follow H owner rest taken node) := by
  rw [descend, if_neg digest_ne, read]
  simp only [decoded]
  cases node with
  | empty | leaf => rfl
  | extension key child =>
      obtain ⟨first, key, rfl⟩ := List.exists_cons_of_ne_nil (Node.key_ne_nil_of_decode decoded)
      cases rest with
      | nil => rw [follow, descend]
      | cons nibble rest => rw [follow, descend_cons_cons]
  | branch children value => cases rest <;> rfl

/-- The rest of a key leads from a node to its value, to just one of its children, or nowhere. -/
inductive Onward (store : Store) (H : Hash) (owner : Owner) (rest taken : Nibbles) (node : Node) :
    Prop
  | value {value : Bytes} (follow_eq : store.follow H owner rest taken node = .found (some value))
      (value_iff : ∀ other, (rest, other) ∈ node.values ↔ other = value)
      (no_child : ∀ suffix child, (suffix, child) ∈ node.children → ¬ suffix <+: rest)
  | child {suffix inner : Nibbles} {child : Digest} (rest_eq : rest = suffix ++ inner)
      (follow_eq : store.follow H owner rest taken node =
        store.descend H owner inner (taken ++ suffix) [] child)
      (no_value : ∀ other, (rest, other) ∉ node.values)
      (member : (suffix, child) ∈ node.children)
      (only : ∀ other child', (other, child') ∈ node.children → other <+: rest →
        other = suffix ∧ child' = child)
  | nowhere (follow_eq : store.follow H owner rest taken node = .absent)
      (no_value : ∀ other, (rest, other) ∉ node.values)
      (no_child : ∀ suffix child, (suffix, child) ∈ node.children → ¬ suffix <+: rest)

private theorem onward_branch (children : Children) (value : Option Bytes) :
    Onward store H owner rest taken (.branch children value) := by
  cases rest with
  | nil =>
      have no_child : ∀ suffix child, (suffix, child) ∈ (Node.branch children value).children →
          ¬ suffix <+: [] := by
        intro suffix child member
        obtain ⟨nibble, rfl, -⟩ := Node.mem_children_branch_iff.mp member
        simp
      cases value with
      | none => exact .nowhere rfl (by simp [Node.values]) no_child
      | some value => exact .value rfl (by simp [Node.values, eq_comm]) no_child
  | cons nibble inner =>
      have no_value : ∀ other, (nibble :: inner, other) ∉ (Node.branch children value).values := by
        simp [Node.values]
      have on_way : ∀ suffix child, (suffix, child) ∈ (Node.branch children value).children →
          suffix <+: nibble :: inner → suffix = [nibble] ∧ children.get nibble = some child := by
        intro suffix child member begins
        obtain ⟨first, rfl, found⟩ := Node.mem_children_branch_iff.mp member
        obtain ⟨rfl, -⟩ := List.cons_prefix_cons.mp begins
        exact ⟨rfl, found⟩
      cases child_eq : children.get nibble with
      | none =>
          refine .nowhere ?_ no_value fun suffix child member begins => ?_
          · simp only [follow, child_eq]
          · cases child_eq.symm.trans (on_way suffix child member begins).2
      | some child =>
          have member : ([nibble], child) ∈ (Node.branch children value).children :=
            Node.mem_children_branch_iff.mpr ⟨nibble, rfl, child_eq⟩
          refine .child List.singleton_append.symm ?_ no_value member ?_
          · simp only [follow, child_eq]
          · intro other child' member begins
            obtain ⟨rfl, found⟩ := on_way other child' member begins
            exact ⟨rfl, Option.some.inj (found.symm.trans child_eq)⟩

theorem onward (store : Store) (H : Hash) (owner : Owner) (rest taken : Nibbles) (node : Node) :
    Onward store H owner rest taken node := by
  cases node with
  | empty => exact .nowhere rfl (by simp [Node.values]) (by simp [Node.children])
  | leaf key value =>
      by_cases same : key = rest
      · exact .value (if_pos same) (by simp [Node.values, same]) (by simp [Node.children])
      · exact .nowhere (if_neg same) (by simp [Node.values, Ne.symm same])
          (by simp [Node.children])
  | extension key child =>
      have no_value : ∀ other, (rest, other) ∉ (Node.extension key child).values := by
        simp [Node.values]
      by_cases begins : key <+: rest
      · obtain ⟨inner, rfl⟩ := begins
        refine .child rfl (descend_append key inner taken child) no_value List.mem_cons_self ?_
        exact fun other child' member _ => Prod.mk.inj (List.mem_singleton.mp member)
      · refine .nowhere (descend_of_not_isPrefix begins) no_value fun suffix child' member => ?_
        obtain ⟨rfl, rfl⟩ := Prod.mk.inj (List.mem_singleton.mp member)
        exact begins
  | branch children value => exact onward_branch children value

/-- Induction along the rest of a key, of which every link of a node takes some nibbles. -/
theorem rest_induction {motive : (rest taken : Nibbles) → Digest → Prop}
    (at_node : ∀ rest taken digest,
      (∀ {node suffix inner child}, Node.WellFormed node → (suffix, child) ∈ node.children →
        rest = suffix ++ inner → motive inner (taken ++ suffix) child) →
      motive rest taken digest)
    (rest taken : Nibbles) (digest : Digest) : motive rest taken digest := by
  induction length_eq : rest.length using Nat.strong_induction_on
    generalizing rest taken digest with
  | h length ih =>
    refine at_node rest taken digest fun {node suffix inner child} wellFormed link rest_eq => ?_
    refine ih inner.length ?_ inner (taken ++ suffix) child rfl
    have positive := List.length_pos_iff.mpr (wellFormed.suffix_ne_nil link)
    rw [← length_eq, rest_eq, List.length_append]
    omega

/-- The nodes of a trie are held at their places, and can be read there. -/
structure Shows (H : Hash) (store : Store) (owner : Owner) (trie : Trie) : Prop where
  read : ∀ {place node}, ⟨place, node⟩ ∈ trie.nodes →
    store.readNode H ⟨⟨owner, place⟩, node.digest H⟩ = .ok node.encode
  encodable : ∀ {place node}, ⟨place, node⟩ ∈ trie.nodes → node.Encodable
  digest_ne : ∀ {place node}, ⟨place, node⟩ ∈ trie.nodes → node.digest H ≠ emptyRoot H

/-- What is found under the rest of a key is what entries hold under it. -/
def Finds (entries : List (Nibbles × Bytes)) (rest : Nibbles)
    (result : Except ReadError (Option Bytes)) : Prop :=
  ∃ found, result = .ok found ∧ ∀ value, found = some value ↔ (rest, value) ∈ entries

theorem Shows.mono {part : Trie} (h : Shows H store owner trie)
    (subset : ∀ placed ∈ part.nodes, placed ∈ trie.nodes) : Shows H store owner part where
  read member := h.read (subset _ member)
  encodable member := h.encodable (subset _ member)
  digest_ne member := h.digest_ne (subset _ member)

section parts

variable {parts : List Trie.Part}

private theorem mem_entries_iff
    (perm : entries.Perm (node.values ++ parts.flatMap Trie.Part.outer)) {key : Nibbles}
    {value : Bytes} : (key, value) ∈ entries ↔ (key, value) ∈ node.values ∨
      ∃ part ∈ parts, ∃ inner, part.suffix ++ inner = key ∧ (inner, value) ∈ part.entries := by
  rw [perm.mem_iff, List.mem_append, List.mem_flatMap]
  simp only [Trie.Part.outer, List.mem_map, Prod.mk.injEq, Prod.exists]
  refine or_congr_right (exists_congr fun part => and_congr_right fun _ => ?_)
  constructor
  · rintro ⟨inner, _, member, same, rfl⟩
    exact ⟨inner, same, member⟩
  · rintro ⟨inner, same, member⟩
    exact ⟨inner, value, member, same, rfl⟩

private theorem finds_follow
    (children_eq : node.children = parts.map fun part => (part.suffix, part.trie.root))
    (perm : entries.Perm (node.values ++ parts.flatMap Trie.Part.outer))
    (finds : ∀ part ∈ parts, ∀ rest, Finds part.entries rest
      (store.descend H owner rest (place ++ part.suffix) [] part.trie.root).result)
    (rest : Nibbles) : Finds entries rest (store.follow H owner rest place node).result := by
  have mem_iff {value : Bytes} : (rest, value) ∈ entries ↔ _ := mem_entries_iff perm
  have link {part : Trie.Part} (part_mem : part ∈ parts) :
      (part.suffix, part.trie.root) ∈ node.children := by
    rw [children_eq]
    exact List.mem_map_of_mem part_mem
  have suffixes_nodup : (parts.map Trie.Part.suffix).Nodup := by
    have nodup := node.nodup_suffixes
    rwa [children_eq, List.map_map] at nodup
  cases store.onward H owner rest place node with
  | @value found follow_eq value_iff no_child =>
      refine ⟨some found, by rw [follow_eq]; rfl, fun value => ?_⟩
      have no_part : ¬ ∃ part ∈ parts, ∃ inner, part.suffix ++ inner = rest ∧
          (inner, value) ∈ part.entries := by
        rintro ⟨part, part_mem, inner, same, -⟩
        exact no_child _ _ (link part_mem) ⟨inner, same⟩
      rw [mem_iff, or_iff_left no_part, value_iff, Option.some_inj, eq_comm]
  | @child suffix inner child rest_eq follow_eq no_value child_mem only =>
      rw [children_eq] at child_mem
      obtain ⟨part, part_mem, same⟩ := List.mem_map.mp child_mem
      obtain ⟨rfl, rfl⟩ := Prod.mk.inj same
      obtain ⟨found, result_eq, found_iff⟩ := finds part part_mem inner
      refine ⟨found, by rw [follow_eq, result_eq], fun value => (found_iff value).trans ?_⟩
      rw [mem_iff, or_iff_right (no_value value), rest_eq]
      constructor
      · exact fun member => ⟨part, part_mem, inner, rfl, member⟩
      · rintro ⟨other, other_mem, inner', same, member⟩
        obtain ⟨suffix_eq, -⟩ := only _ _ (link other_mem) ⟨inner', same.trans rest_eq.symm⟩
        obtain rfl := List.inj_on_of_nodup_map suffixes_nodup other_mem part_mem suffix_eq
        rwa [List.append_cancel_left same] at member
  | nowhere follow_eq no_value no_child =>
      refine ⟨none, by rw [follow_eq]; rfl, fun value => ⟨nofun, fun member => ?_⟩⟩
      rcases mem_iff.mp member with held | ⟨part, part_mem, inner, same, -⟩
      · exact absurd held (no_value value)
      · exact absurd ⟨inner, same⟩ (no_child _ _ (link part_mem))

end parts

theorem finds_descend (built : Trie.Built H place entries trie)
    (shows : Shows H store owner trie) (rest : Nibbles) :
    Finds entries rest (store.descend H owner rest place [] trie.root).result := by
  induction built generalizing rest with
  | @assemble place entries node parts entries_ne children_eq suffix_ne perm built ih =>
      have built_top := Trie.Built.assemble parts entries_ne children_eq suffix_ne perm built
      have on_top : ⟨place, node⟩ ∈
          (Trie.top H place node (parts.flatMap fun part => part.trie.nodes)).nodes :=
        List.mem_append_right _ List.mem_cons_self
      have root_eq : (Trie.top H place node (parts.flatMap fun part => part.trie.nodes)).root =
          node.digest H := rfl
      have wellFormed := built_top.wellFormed on_top (shows.encodable on_top)
      rw [root_eq, descend_eq_follow (shows.digest_ne on_top) (shows.read on_top)
        (Node.decode_encode wellFormed)]
      refine finds_follow children_eq perm (fun part part_mem rest => ?_) rest
      refine ih part part_mem (shows.mono fun placed member => ?_) rest
      exact List.mem_append_left _ (List.mem_flatMap.mpr ⟨part, part_mem, member⟩)

theorem get_of_shows {entries : Std.TreeMap Digest Bytes}
    (shows : Shows H store owner (Trie.ofMap H entries)) (key : Digest) :
    store.get H owner (Trie.ofMap H entries).root key = .ok entries[key]? := by
  by_cases empty : entries.toList = []
  · have absent : entries[key]? = none := by
      refine Option.eq_none_iff_forall_ne_some.mpr fun value found => ?_
      rw [← Std.TreeMap.mem_toList_iff_getElem?_eq_some, empty] at found
      simp at found
    have root_eq : (Trie.ofMap H entries).root = emptyRoot H := by
      rw [Trie.ofMap_of_isEmpty empty, Trie.empty]
    rw [get, lookup, root_eq, descend, if_pos rfl, absent]
    rfl
  · obtain ⟨found, result_eq, found_iff⟩ :=
      finds_descend (Trie.built_ofMap H empty) shows key.nibbles
    rw [get, lookup, result_eq]
    refine congrArg Except.ok (Option.ext fun value => (found_iff value).trans ?_)
    rw [← Std.TreeMap.mem_toList_iff_getElem?_eq_some, List.mem_map]
    constructor
    · rintro ⟨⟨other, _⟩, member, same⟩
      obtain ⟨key_eq, rfl⟩ := Prod.mk.inj same
      rwa [← Digest.nibbles_injective key_eq]
    · exact fun member => ⟨_, member, rfl⟩

end Store

end TrieSync
