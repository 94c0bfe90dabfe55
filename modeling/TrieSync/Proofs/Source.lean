import TrieSync.Proofs.Building
import TrieSync.Proofs.Reachability

namespace TrieSync

/-- The maps that the tries of a source are built from: that of the root trie, and those of the
storage tries of the accounts in it. -/
structure Source where
  entries : Std.TreeMap Digest Bytes
  storage : Digest → Std.TreeMap Digest Bytes

namespace Source

variable {H : Hash} {schema : Schema} {known : Digest → Bytes → Prop} {source : Source}
  {path : Path} {node : Node} {suffix : Nibbles} {digest : Digest} {value : Bytes}

def map (source : Source) : Owner → Std.TreeMap Digest Bytes
  | .root => source.entries
  | .account key => source.storage key

def trie (source : Source) (H : Hash) (owner : Owner) : Trie :=
  .ofMap H (source.map owner)

/-- The owner has a trie: only accounts have storage tries. -/
def Has (source : Source) (schema : Schema) : Owner → Prop
  | .root => True
  | .account key => schema = .accounts ∧ ∃ value, source.entries[key]? = some value

theorem has_root (source : Source) (schema : Schema) : source.Has schema .root := trivial

/-- There is a node at a place. -/
def Serves (source : Source) (H : Hash) (schema : Schema) (path : Path) (node : Node) : Prop :=
  source.Has schema path.owner ∧ ⟨path.nibbles, node⟩ ∈ (source.trie H path.owner).nodes

/-- There is a node with a digest at a place. -/
def Contains (source : Source) (H : Hash) (schema : Schema) (occurrence : Occurrence) : Prop :=
  ∃ node, source.Serves H schema occurrence.path node ∧ node.digest H = occurrence.digest

/-- All nodes have an encoding, and if values are read as accounts, then they are accounts with the
storage tries of the source. -/
structure Consistent (H : Hash) (schema : Schema) (source : Source) : Prop where
  encodable : ∀ {owner}, source.Has schema owner → (Trie.ofMap? H (source.map owner)).isSome
  accounts : schema = .accounts → ∀ {key : Digest} {value}, source.entries[key]? = some value →
    ∃ account : Account, account.encode = value ∧
      account.storageRoot = (source.trie H (.account key)).root

/-- The bytes that are known include those of all nodes of a source, and of the empty node. -/
structure Sound (H : Hash) (schema : Schema) (known : Digest → Bytes → Prop) (source : Source) :
    Prop where
  consistent : source.Consistent H schema
  functional : Functional known
  node_known : ∀ {path node}, source.Serves H schema path node → known (node.digest H) node.encode
  empty_known : known (emptyRoot H) Node.empty.encode

private theorem built_of_mem {owner : Owner} {placed : PlacedNode}
    (member : placed ∈ (source.trie H owner).nodes) :
    Trie.Built H [] ((source.map owner).toList.map fun (key, value) => (key.nibbles, value))
      (source.trie H owner) := by
  refine Trie.built_ofMap H fun empty => ?_
  rw [trie, Trie.ofMap_of_isEmpty empty] at member
  simp [Trie.empty] at member

namespace Serves

theorem built (h : source.Serves H schema path node) :
    Trie.Built H [] ((source.map path.owner).toList.map fun (key, value) => (key.nibbles, value))
      (source.trie H path.owner) :=
  built_of_mem h.2

theorem exists_child (h : source.Serves H schema path node)
    (link : (suffix, digest) ∈ node.children) :
    source.Contains H schema ⟨path.join suffix, digest⟩ := by
  obtain ⟨lower, lower_mem, digest_eq⟩ := h.built.exists_child h.2 link
  exact ⟨lower, ⟨h.1, lower_mem⟩, digest_eq⟩

theorem length_le (h : source.Serves H schema path node) :
    path.nibbles.length ≤ Digest.keyLength := by
  refine h.built.length_le (fun entry entry_mem => ?_) h.2
  rw [(Trie.keyed_ofMap _).length_eq entry entry_mem, List.length_nil, Nat.zero_add]

theorem exists_key (h : source.Serves H schema path node) (held : (suffix, value) ∈ node.values) :
    ∃ key : Digest, key.nibbles = path.nibbles ++ suffix ∧
      (source.map path.owner)[key]? = some value := by
  obtain ⟨_, entry_mem, key_eq⟩ := h.built.exists_entry h.2 held
  obtain ⟨⟨key, _⟩, member, same⟩ := List.mem_map.mp entry_mem
  obtain ⟨rfl, rfl⟩ := Prod.mk.inj same
  exact ⟨key, key_eq, Std.TreeMap.mem_toList_iff_getElem?_eq_some.mp member⟩

end Serves

theorem contains_root {owner : Owner} (has : source.Has schema owner)
    (root_ne : (source.trie H owner).root ≠ emptyRoot H) :
    source.Contains H schema ⟨⟨owner, []⟩, (source.trie H owner).root⟩ := by
  have nonempty : (source.map owner).toList ≠ [] := by
    intro empty
    rw [trie, Trie.ofMap_of_isEmpty empty] at root_ne
    exact root_ne rfl
  obtain ⟨node, member, digest_eq⟩ := (Trie.built_ofMap H nonempty).exists_top
  exact ⟨node, ⟨has, member⟩, digest_eq⟩

theorem exists_holder {owner : Owner} (has : source.Has schema owner) {key : Digest}
    (found : (source.map owner)[key]? = some value) :
    ∃ path node suffix, path.owner = owner ∧ source.Serves H schema path node ∧
      (suffix, value) ∈ node.values ∧ key.nibbles = path.nibbles ++ suffix := by
  have member := Std.TreeMap.mem_toList_iff_getElem?_eq_some.mpr found
  obtain ⟨place, node, suffix, node_mem, held, key_eq⟩ :=
    (Trie.built_ofMap H (List.ne_nil_of_mem member)).exists_holder
      (List.mem_map.mpr ⟨_, member, rfl⟩)
  exact ⟨⟨owner, place⟩, node, suffix, rfl, ⟨has, node_mem⟩, held, key_eq⟩

/-- An account under a key refers to a node, its storage trie. -/
def StorageOf (H : Hash) (key : Nibbles) (value : Bytes) (lower : Occurrence) : Prop :=
  ∃ owner : Digest, ∃ account : Account, owner.nibbles = key ∧ account.encode = value ∧
    account.storageRoot ≠ emptyRoot H ∧ lower = ⟨.subTrie owner, account.storageRoot⟩

private theorem exists_ofValues {place : Nibbles} {values : List (Nibbles × Bytes)}
    (accounts : ∀ held ∈ values, ∃ owner : Digest, ∃ account : Account,
      owner.nibbles = place ++ held.1 ∧ account.encode = held.2) :
    ∃ references, References.ofValues H place values = .ok references ∧
      ∀ lower, lower ∈ references.nodes ↔
        ∃ suffix value, (suffix, value) ∈ values ∧ StorageOf H (place ++ suffix) value lower := by
  induction values with
  | nil => exact ⟨⟨[], []⟩, rfl, by simp⟩
  | cons held values ih =>
      obtain ⟨suffix, value⟩ := held
      obtain ⟨rest, rest_eq, mem_rest_iff⟩ :=
        ih fun held member => accounts held (List.mem_cons_of_mem _ member)
      obtain ⟨owner, account, owner_eq, encode_eq⟩ := accounts _ List.mem_cons_self
      dsimp only at owner_eq encode_eq
      have first_eq : References.ofValue H (place ++ suffix) value =
          .ok (.ofAccount H owner account) :=
        References.ofValue_eq_ok_iff.mpr
          ⟨owner, account, owner_eq, encode_eq ▸ account.decode_encode, rfl⟩
      refine ⟨_, References.ofValues_cons_eq_ok_iff.mpr ⟨_, rest, first_eq, rest_eq, rfl⟩, ?_⟩
      intro lower
      have mem_first_iff : lower ∈ (References.ofAccount H owner account).nodes ↔
          StorageOf H (place ++ suffix) value lower := by
        subst encode_eq
        simp only [References.ofAccount]
        constructor
        · intro member
          split at member
          · simp at member
          · rename_i storageRoot_ne
            exact ⟨owner, account, owner_eq, rfl, storageRoot_ne, List.mem_singleton.mp member⟩
        · rintro ⟨other, held, other_eq, encode_eq, storageRoot_ne, rfl⟩
          obtain rfl := Digest.nibbles_injective (other_eq.trans owner_eq.symm)
          obtain rfl := Account.encode_injective encode_eq
          rw [if_neg storageRoot_ne]
          exact List.mem_singleton_self _
      rw [References.nodes_append, List.mem_append, mem_first_iff, mem_rest_iff]
      constructor
      · rintro (first | ⟨other, held, member, storage⟩)
        · exact ⟨suffix, value, List.mem_cons_self, first⟩
        · exact ⟨other, held, List.mem_cons_of_mem _ member, storage⟩
      · rintro ⟨other, held, member, storage⟩
        rcases List.mem_cons.mp member with same | member
        · obtain ⟨rfl, rfl⟩ := Prod.mk.inj same
          exact .inl storage
        · exact .inr ⟨other, held, member, storage⟩

namespace Consistent

theorem node_encodable (h : source.Consistent H schema)
    (serves : source.Serves H schema path node) : node.Encodable := by
  have encodable := h.encodable serves.1
  simp only [Trie.ofMap?, Option.isSome_ite] at encodable
  exact encodable _ serves.2

theorem wellFormed (h : source.Consistent H schema) (serves : source.Serves H schema path node) :
    node.WellFormed :=
  serves.built.wellFormed serves.2 (h.node_encodable serves)

/-- What a node of the source refers to: its children, and the storage tries of its accounts. -/
theorem exists_references (h : source.Consistent H schema)
    (serves : source.Serves H schema path node) :
    ∃ references, schema.references H path node.encode = .ok references ∧
      ∀ lower, lower ∈ references.nodes ↔
        (∃ suffix digest, (suffix, digest) ∈ node.children ∧ lower = ⟨path.join suffix, digest⟩) ∨
        (schema = .accounts ∧ path.owner = .root) ∧ ∃ suffix value, (suffix, value) ∈ node.values ∧
          StorageOf H (path.nibbles ++ suffix) value lower := by
  have mem_children_iff (lower : Occurrence) : lower ∈ (References.ofChildren path node).nodes ↔
      ∃ suffix digest, (suffix, digest) ∈ node.children ∧ lower = ⟨path.join suffix, digest⟩ := by
    simp [References.ofChildren, eq_comm]
  rw [Schema.references, Node.decode_encode (h.wellFormed serves)]
  by_cases reads : schema = .accounts ∧ path.owner = .root
  · have accounts : ∀ held ∈ node.values, ∃ owner : Digest, ∃ account : Account,
        owner.nibbles = path.nibbles ++ held.1 ∧ account.encode = held.2 := by
      rintro ⟨suffix, value⟩ held
      obtain ⟨owner, owner_eq, found⟩ := serves.exists_key held
      rw [reads.2] at found
      obtain ⟨account, encode_eq, -⟩ := h.accounts reads.1 found
      exact ⟨owner, account, owner_eq, encode_eq⟩
    obtain ⟨values, values_eq, mem_values_iff⟩ := exists_ofValues (H := H) accounts
    refine ⟨_, Schema.nodeReferences_eq_ok_iff.mpr (.inr ⟨reads, values, values_eq, rfl⟩),
      fun lower => ?_⟩
    rw [References.nodes_append, List.mem_append, mem_children_iff, mem_values_iff,
      and_iff_right reads]
  · have plain : schema = .plain ∨ path.owner ≠ .root := by
      cases schema with
      | plain => exact .inl rfl
      | accounts => exact .inr fun owner_eq => reads ⟨rfl, owner_eq⟩
    refine ⟨_, Schema.nodeReferences_eq_ok_iff.mpr (.inl ⟨plain, rfl⟩), fun lower => ?_⟩
    rw [mem_children_iff, or_iff_left fun storage => reads storage.1]

theorem contains_of_mem (h : source.Consistent H schema)
    (serves : source.Serves H schema path node) {references : References} {lower : Occurrence}
    (decoded : schema.references H path node.encode = .ok references)
    (member : lower ∈ references.nodes) (digest_ne : lower.digest ≠ emptyRoot H) :
    source.Contains H schema lower := by
  obtain ⟨_, decoded', mem_iff⟩ := h.exists_references serves
  obtain rfl := Except.ok.inj (decoded.symm.trans decoded')
  rcases (mem_iff lower).mp member with ⟨suffix, digest, link, rfl⟩ |
    ⟨reads, suffix, value, held, owner, account, owner_eq, encode_eq, -, rfl⟩
  · exact serves.exists_child link
  · obtain ⟨key, key_eq, found⟩ := serves.exists_key held
    obtain rfl := Digest.nibbles_injective (key_eq.trans owner_eq.symm)
    rw [reads.2] at found
    obtain ⟨_, encode_eq', root_eq⟩ := h.accounts reads.1 found
    obtain rfl := Account.encode_injective (encode_eq.trans encode_eq'.symm)
    have has : source.Has schema (.account key) := ⟨reads.1, value, found⟩
    dsimp only at digest_ne ⊢
    rw [root_eq] at digest_ne ⊢
    exact contains_root has digest_ne

end Consistent

namespace Sound

variable {other : Path} {node' : Node}

theorem eq_of_digest_eq (h : source.Sound H schema known)
    (serves : source.Serves H schema path node) (serves' : source.Serves H schema other node')
    (digest_eq : node.digest H = node'.digest H) : node = node' :=
  Node.encode_injective (h.consistent.wellFormed serves) (h.consistent.wellFormed serves')
    (h.functional _ _ _ (h.node_known serves) (digest_eq ▸ h.node_known serves'))

theorem digest_ne (h : source.Sound H schema known) (serves : source.Serves H schema path node) :
    node.digest H ≠ emptyRoot H := by
  intro digest_eq
  have encode_eq := h.functional _ _ _ (digest_eq ▸ h.node_known serves) h.empty_known
  exact serves.built.ne_empty serves.2
    (Node.encode_injective (h.consistent.wellFormed serves) trivial encode_eq)

theorem bytes_eq (h : source.Sound H schema known) (serves : source.Serves H schema path node)
    {bytes : Bytes} (bytes_known : known (node.digest H) bytes) : bytes = node.encode :=
  h.functional _ _ _ bytes_known (h.node_known serves)

/-- Nodes with one digest are as far from the ends of their keys. -/
theorem length_eq_of_digest_eq (h : source.Sound H schema known)
    (serves : source.Serves H schema path node) (serves' : source.Serves H schema other node')
    (digest_eq : node.digest H = node'.digest H) :
    path.nibbles.length = other.nibbles.length := by
  generalize bound_eq : Digest.keyLength - path.nibbles.length = bound
  induction bound using Nat.strongRecOn generalizing path other node node' with
  | ind bound ih =>
      obtain rfl := h.eq_of_digest_eq serves serves' digest_eq
      rcases serves.built.holds_or_leads serves.2 with values_ne | children_ne
      · obtain ⟨⟨suffix, value⟩, held⟩ := List.exists_mem_of_ne_nil _ values_ne
        obtain ⟨key, key_eq, -⟩ := serves.exists_key held
        obtain ⟨key', key_eq', -⟩ := serves'.exists_key held
        have length_eq := congrArg List.length key_eq
        have length_eq' := congrArg List.length key_eq'
        simp only [Digest.length_nibbles, List.length_append] at length_eq length_eq'
        omega
      · obtain ⟨⟨suffix, digest⟩, link⟩ := List.exists_mem_of_ne_nil _ children_ne
        obtain ⟨lower, lower_serves, lower_eq⟩ := serves.exists_child link
        obtain ⟨lower', lower_serves', lower_eq'⟩ := serves'.exists_child link
        have suffix_pos := List.length_pos_iff.mpr (serves.built.suffix_ne_nil serves.2 link)
        have lower_le := lower_serves.length_le
        rw [Path.nibbles_join, List.length_append] at lower_le
        have lengths_eq := ih _ (by rw [Path.nibbles_join, List.length_append]; omega) lower_serves
          lower_serves' (lower_eq.trans lower_eq'.symm) rfl
        simp only [Path.nibbles_join, List.length_append] at lengths_eq
        omega

theorem leads_of_mem (h : source.Sound H schema known) (serves : source.Serves H schema path node)
    {references : References} {lower : Occurrence}
    (decoded : schema.references H path node.encode = .ok references)
    (member : lower ∈ references.nodes) (digest_ne : lower.digest ≠ emptyRoot H) :
    Scheduler.Leads H schema known ⟨path, node.digest H⟩ lower :=
  ⟨node.encode, references, h.node_known serves, decoded, member, digest_ne⟩

theorem contains_of_leads (h : source.Sound H schema known) {upper lower : Occurrence}
    (contains : source.Contains H schema upper)
    (leads : Scheduler.Leads H schema known upper lower) : source.Contains H schema lower := by
  obtain ⟨node, serves, digest_eq⟩ := contains
  obtain ⟨bytes, references, bytes_known, decoded, member, digest_ne⟩ := leads
  obtain rfl := h.bytes_eq serves (digest_eq ▸ bytes_known)
  exact h.consistent.contains_of_mem serves decoded member digest_ne

theorem contains_of_reachable (h : source.Sound H schema known) {occurrence : Occurrence}
    (reachable : Reachable H schema known (source.trie H .root).root occurrence) :
    source.Contains H schema occurrence := by
  obtain ⟨root_ne, leads_to⟩ := reachable
  induction leads_to with
  | refl => exact contains_root (source.has_root schema) root_ne
  | tail _ leads ih => exact h.contains_of_leads ih leads

private theorem reachable_of_root (h : source.Sound H schema known) {owner : Owner}
    (has : source.Has schema owner) {root : Digest}
    (top_reachable : (source.trie H owner).root ≠ emptyRoot H →
      Reachable H schema known root ⟨⟨owner, []⟩, (source.trie H owner).root⟩)
    {place : Nibbles} (member : ⟨place, node⟩ ∈ (source.trie H owner).nodes) :
    Reachable H schema known root ⟨⟨owner, place⟩, node.digest H⟩ := by
  have built := built_of_mem member
  refine built.forall_nodes (P := fun place digest =>
    Reachable H schema known root ⟨⟨owner, place⟩, digest⟩) (top_reachable ?_) ?_ member
  · obtain ⟨top, top_mem, digest_eq⟩ := built.exists_top
    have top_serves : source.Serves H schema ⟨owner, []⟩ top := ⟨has, top_mem⟩
    exact digest_eq ▸ h.digest_ne top_serves
  · intro other upper suffix digest upper_mem reachable link
    have serves : source.Serves H schema ⟨owner, other⟩ upper := ⟨has, upper_mem⟩
    obtain ⟨references, decoded, mem_iff⟩ := h.consistent.exists_references serves
    obtain ⟨lower, lower_serves, rfl⟩ := serves.exists_child link
    exact reachable.tail (h.leads_of_mem serves decoded
      ((mem_iff _).mpr (.inl ⟨suffix, _, link, rfl⟩)) (h.digest_ne lower_serves))

theorem reachable_of_serves (h : source.Sound H schema known)
    (serves : source.Serves H schema path node) :
    Reachable H schema known (source.trie H .root).root ⟨path, node.digest H⟩ := by
  have root_reachable {place : Nibbles} {node : Node}
      (member : ⟨place, node⟩ ∈ (source.trie H .root).nodes) :
      Reachable H schema known (source.trie H .root).root ⟨⟨.root, place⟩, node.digest H⟩ :=
    h.reachable_of_root (source.has_root schema) (fun root_ne => ⟨root_ne, .refl⟩) member
  obtain ⟨_ | key, place⟩ := path
  · exact root_reachable serves.2
  · refine h.reachable_of_root serves.1 (fun storage_ne => ?_) serves.2
    -- The account is in a leaf of the root trie, which refers to the storage trie.
    obtain ⟨reads, value, found⟩ := serves.1
    obtain ⟨account, encode_eq, storage_eq⟩ := h.consistent.accounts reads found
    obtain ⟨⟨_, place⟩, leaf, suffix, rfl, leaf_serves, held, key_eq⟩ :=
      exists_holder (H := H) (source.has_root schema) found
    obtain ⟨references, decoded, mem_iff⟩ := h.consistent.exists_references leaf_serves
    rw [← storage_eq] at storage_ne ⊢
    exact (root_reachable leaf_serves.2).tail (h.leads_of_mem leaf_serves decoded
      ((mem_iff _).mpr (.inr ⟨⟨reads, rfl⟩, suffix, value, held, key, account, key_eq, encode_eq,
        storage_ne, rfl⟩)) storage_ne)

end Sound

end Source

end TrieSync
