import TrieSync.Proofs.Commitment
import TrieSync.Proofs.Shape
import TrieSync.Proofs.Slicing

namespace TrieSync

namespace References

variable {H : Hash} {place : Nibbles} {values : List (Nibbles × Bytes)}

/-- What a value refers to under its full key, and nothing if it is no account. -/
def ofEntry (H : Hash) (entry : Nibbles × Bytes) : References :=
  (ofValue H entry.1 entry.2).toOption.getD ⟨[], []⟩

def ofHeld (H : Hash) (held : List (Nibbles × Bytes)) : References where
  nodes := held.flatMap fun entry => (ofEntry H entry).nodes
  codes := held.flatMap fun entry => (ofEntry H entry).codes

/-- An account under the full nibbles of a key. -/
inductive IsAccount : Nibbles × Bytes → Prop
  | mk (key : Digest) (account : Account) : IsAccount (key.nibbles, account.encode)

theorem ofValue_account (H : Hash) (key : Digest) (account : Account) :
    ofValue H key.nibbles account.encode = .ok (ofAccount H key account) :=
  ofValue_eq_ok_iff.mpr ⟨key, account, rfl, account.decode_encode, rfl⟩

theorem ofEntry_account (H : Hash) (key : Digest) (account : Account) :
    ofEntry H (key.nibbles, account.encode) = ofAccount H key account := by
  rw [ofEntry, ofValue_account]
  rfl

theorem ofValue_of_isAccount {entry : Nibbles × Bytes} (account : IsAccount entry) :
    ofValue H entry.1 entry.2 = .ok (ofEntry H entry) := by
  cases account with
  | mk key account => rw [ofEntry_account, ofValue_account]

theorem ofValues_of_isAccount
    (accounts : ∀ entry ∈ values, IsAccount (place ++ entry.1, entry.2)) :
    ofValues H place values =
      .ok (ofHeld H (values.map fun (suffix, value) => (place ++ suffix, value))) := by
  induction values with
  | nil => rfl
  | cons first rest ih =>
      have rest_eq := ih fun entry member => accounts entry (List.mem_cons_of_mem _ member)
      have first_eq := ofValue_of_isAccount (H := H) (accounts first List.mem_cons_self)
      exact ofValues_cons_eq_ok_iff.mpr ⟨_, _, first_eq, rest_eq, rfl⟩

theorem owner_eq_of_mem_ofChildren {path : Path} {node : Node} {occurrence : Occurrence}
    (member : occurrence ∈ (ofChildren path node).nodes) :
    occurrence.path.owner = path.owner := by
  obtain ⟨link, -, rfl⟩ := List.mem_map.mp member
  rfl

theorem owner_ne_of_mem_ofHeld {held : List (Nibbles × Bytes)} {occurrence : Occurrence}
    (accounts : ∀ entry ∈ held, IsAccount entry)
    (member : occurrence ∈ (ofHeld H held).nodes) : occurrence.path.owner ≠ .root := by
  obtain ⟨entry, entry_mem, member⟩ := List.mem_flatMap.mp member
  cases accounts entry entry_mem with
  | mk key account =>
      rw [ofEntry_account] at member
      rcases nodes_ofAccount (H := H) key account with nodes_eq | nodes_eq
      · simp [nodes_eq] at member
      · rw [nodes_eq, List.mem_singleton] at member
        simp [member, Path.subTrie]

section accounts

variable (H : Hash) (accounts : List (Digest × Account))

theorem nodes_of_accounts :
    (accounts.map fun entry => (entry.1.nibbles, entry.2.encode)).flatMap
        (fun entry => (ofEntry H entry).nodes) =
      (accounts.filter fun entry => entry.2.storageRoot ≠ emptyRoot H).map fun entry =>
        ⟨.subTrie entry.1, entry.2.storageRoot⟩ := by
  induction accounts with
  | nil => rfl
  | cons first rest ih =>
      rw [List.map_cons, List.flatMap_cons, ih, ofEntry_account, ofAccount]
      by_cases empty : first.2.storageRoot = emptyRoot H <;> simp [empty]

theorem codes_of_accounts :
    (accounts.map fun entry => (entry.1.nibbles, entry.2.encode)).flatMap
        (fun entry => (ofEntry H entry).codes) =
      (accounts.map fun entry => entry.2.codeHash).filter (· ≠ emptyCode H) := by
  induction accounts with
  | nil => rfl
  | cons first rest ih =>
      rw [List.map_cons, List.flatMap_cons, ih, ofEntry_account, ofAccount]
      by_cases empty : first.2.codeHash = emptyCode H <;> simp [empty]

end accounts

end References

namespace PlacedNode

variable {H : Hash}

/-- What a node of the root trie refers to if its values are accounts. -/
def references (H : Hash) (placed : PlacedNode) : References :=
  .ofChildren ⟨.root, placed.place⟩ placed.node ++ .ofHeld H placed.held

theorem references_eq {placed : PlacedNode} (wellFormed : placed.node.WellFormed)
    (accounts : ∀ entry ∈ placed.held, References.IsAccount entry) :
    Schema.references .accounts H ⟨.root, placed.place⟩ placed.node.encode =
      .ok (placed.references H) := by
  refine Schema.references_eq_ok_iff.mpr ⟨placed.node, placed.node.decode_encode wellFormed, ?_⟩
  refine Schema.nodeReferences_eq_ok_iff.mpr (.inr ⟨⟨rfl, rfl⟩, _, ?_, rfl⟩)
  exact References.ofValues_of_isAccount fun entry member =>
    accounts _ (List.mem_map_of_mem (f := fun entry => (placed.place ++ entry.1, entry.2)) member)

theorem own_references {placed : PlacedNode}
    (accounts : ∀ entry ∈ placed.held, References.IsAccount entry) :
    (placed.references H).nodes.filter (fun node => node.path.owner = .root) =
      (References.ofChildren ⟨.root, placed.place⟩ placed.node).nodes := by
  rw [references, References.nodes_append, List.filter_append, List.filter_eq_self.mpr,
    List.filter_eq_nil_iff.mpr, List.append_nil]
  · intro node member
    simpa using References.owner_ne_of_mem_ofHeld accounts member
  · intro node member
    simpa using References.owner_eq_of_mem_ofChildren member

theorem owned_references {placed : PlacedNode}
    (accounts : ∀ entry ∈ placed.held, References.IsAccount entry) :
    (placed.references H).nodes.filter (fun node => node.path.owner ≠ .root) =
      (References.ofHeld H placed.held).nodes := by
  rw [references, References.nodes_append, List.filter_append, List.filter_eq_nil_iff.mpr,
    List.filter_eq_self.mpr, List.nil_append]
  · intro node member
    simpa using References.owner_ne_of_mem_ofHeld accounts member
  · intro node member
    simpa using References.owner_eq_of_mem_ofChildren member

end PlacedNode

namespace Trie

variable {H : Hash} {accounts : Std.TreeMap Digest Account}

/-- The map of the encodings of accounts. -/
def encodings (accounts : Std.TreeMap Digest Account) : Std.TreeMap Digest Bytes :=
  accounts.map fun _ account => account.encode

theorem shortValues_encodings (accounts : Std.TreeMap Digest Account) :
    ShortValues (encodings accounts) := by
  intro key value found
  rw [encodings, Std.TreeMap.getElem?_map, Option.map_eq_some_iff] at found
  obtain ⟨account, -, rfl⟩ := found
  rw [Account.length_encode]
  decide

theorem held_encodings_perm (H : Hash) (accounts : Std.TreeMap Digest Account) :
    ((ofMap H (encodings accounts)).nodes.flatMap PlacedNode.held).Perm
      (accounts.toList.map fun entry => (entry.1.nibbles, entry.2.encode)) := by
  have entries_eq : (encodings accounts).toList.map (fun entry => (entry.1.nibbles, entry.2)) =
      accounts.toList.map fun entry => (entry.1.nibbles, entry.2.encode) := by
    rw [encodings, Std.TreeMap.toList_map, List.map_map]
    rfl
  by_cases empty : (encodings accounts).toList = []
  · rw [← entries_eq, empty, ofMap_of_isEmpty empty]
    exact .nil
  · rw [← entries_eq]
    refine (built_ofMap H empty).held_perm.trans (.of_eq ?_)
    simp

theorem links_ofMap_perm (H : Hash) (entries : Std.TreeMap Digest Bytes) :
    ((ofMap H entries).nodes.flatMap PlacedNode.links).Perm
      ((ofMap H entries).nodes.dropLast.map (PlacedNode.label H)) := by
  by_cases empty : entries.toList = []
  · rw [ofMap_of_isEmpty empty]
    exact .nil
  · exact (built_ofMap H empty).links_perm

theorem wellFormed_ofMap?_nodes {entries : Std.TreeMap Digest Bytes} {trie : Trie}
    (made : ofMap? H entries = some trie) {placed : PlacedNode} (member : placed ∈ trie.nodes) :
    placed.node.WellFormed := by
  obtain ⟨encodable, trie_eq⟩ := Option.ite_none_right_eq_some.mp made
  obtain rfl := Option.some.inj trie_eq
  by_cases empty : entries.toList = []
  · rw [ofMap_of_isEmpty empty] at member
    simp [Trie.empty] at member
  · exact (built_ofMap H empty).wellFormed member (encodable placed member)

theorem nodup_places_ofMap (H : Hash) (entries : Std.TreeMap Digest Bytes) :
    ((ofMap H entries).nodes.map PlacedNode.place).Nodup := by
  by_cases empty : entries.toList = []
  · rw [ofMap_of_isEmpty empty]
    exact .nil
  · exact (built_ofMap H empty).nodup_places

theorem nodup_storageTries (H : Hash) (accounts : Std.TreeMap Digest Account) :
    ((accounts.toList.filter fun entry => entry.2.storageRoot ≠ emptyRoot H).map
      fun entry => (⟨.subTrie entry.1, entry.2.storageRoot⟩ : Occurrence)).Nodup := by
  have keys_nodup := List.pairwise_map.mp (Entries.nodup_keys accounts)
  refine List.pairwise_map.mpr ((keys_nodup.sublist List.filter_sublist).imp ?_)
  intro left right keys_ne same
  have paths_eq : Path.subTrie left.1 = Path.subTrie right.1 := congrArg Occurrence.path same
  exact keys_ne (Owner.account.inj (congrArg Path.owner paths_eq))

theorem isAccount_of_mem_held {placed : PlacedNode}
    (member : placed ∈ (ofMap H (encodings accounts)).nodes) :
    ∀ entry ∈ placed.held, References.IsAccount entry := by
  intro entry held
  have entry_mem := (held_encodings_perm H accounts).mem_iff.mp
    (List.mem_flatMap.mpr ⟨placed, member, held⟩)
  obtain ⟨⟨key, account⟩, -, rfl⟩ := List.mem_map.mp entry_mem
  exact .mk key account

theorem owned_references_perm (H : Hash) (accounts : Std.TreeMap Digest Account) :
    ((ofMap H (encodings accounts)).nodes.flatMap fun placed =>
        (placed.references H).nodes.filter fun node => node.path.owner ≠ .root).Perm
      ((accounts.toList.filter fun entry => entry.2.storageRoot ≠ emptyRoot H).map
        fun entry => ⟨.subTrie entry.1, entry.2.storageRoot⟩) := by
  rw [← References.nodes_of_accounts]
  refine .trans (.of_eq ?_) ((held_encodings_perm H accounts).flatMap_right _)
  rw [List.flatMap_assoc]
  exact List.flatMap_congr fun placed member =>
    PlacedNode.owned_references (isAccount_of_mem_held member)

theorem own_references_perm (H : Hash) (accounts : Std.TreeMap Digest Account) :
    ((ofMap H (encodings accounts)).nodes.flatMap fun placed =>
        (placed.references H).nodes.filter fun node => node.path.owner = .root).Perm
      ((ofMap H (encodings accounts)).nodes.dropLast.map fun placed =>
        ⟨⟨.root, placed.place⟩, placed.node.digest H⟩) := by
  refine .trans (.of_eq ?_) (((links_ofMap_perm H (encodings accounts)).map
    fun link => ⟨⟨.root, link.1⟩, link.2⟩).trans (.of_eq List.map_map))
  rw [List.map_flatMap]
  refine List.flatMap_congr fun placed member => ?_
  rw [PlacedNode.own_references (isAccount_of_mem_held member), PlacedNode.links, List.map_map]
  rfl

theorem codes_references_perm (H : Hash) (accounts : Std.TreeMap Digest Account) :
    ((ofMap H (encodings accounts)).nodes.flatMap fun placed => (placed.references H).codes).Perm
      ((accounts.toList.map fun entry => entry.2.codeHash).filter (· ≠ emptyCode H)) := by
  rw [← References.codes_of_accounts]
  refine .trans (.of_eq ?_) ((held_encodings_perm H accounts).flatMap_right _)
  rw [List.flatMap_assoc]
  rfl

/-- The trie of accounts refers once to every storage trie that is not empty, to the code of every
account that has some, and once to each of its nodes but the root. -/
theorem references_of_accounts (H : Hash) (accounts : Std.TreeMap Digest Account) :
    (∃ trie, build? H (encodings accounts) = some trie ∧
      ∃ references plain : PlacedNode → References,
        (∀ placed ∈ trie.nodes,
          Schema.references .accounts H ⟨.root, placed.place⟩ placed.node.encode =
            .ok (references placed) ∧
          Schema.references .plain H ⟨.root, placed.place⟩ placed.node.encode = .ok (plain placed) ∧
          (references placed).nodes.filter (fun node => node.path.owner = .root) =
            (plain placed).nodes) ∧
        let owned := trie.nodes.flatMap fun placed =>
          (references placed).nodes.filter fun node => node.path.owner ≠ .root
        let own := trie.nodes.flatMap fun placed =>
          (references placed).nodes.filter fun node => node.path.owner = .root
        owned.Perm
            ((accounts.toList.filter fun entry => entry.2.storageRoot ≠ emptyRoot H).map
              fun entry => ⟨.subTrie entry.1, entry.2.storageRoot⟩) ∧
          owned.Nodup ∧
          (trie.nodes.flatMap fun placed => (references placed).codes).Perm
            ((accounts.toList.map fun entry => entry.2.codeHash).filter (· ≠ emptyCode H)) ∧
          own.Perm (trie.nodes.dropLast.map fun placed =>
            ⟨⟨.root, placed.place⟩, placed.node.digest H⟩) ∧
          own.Nodup) ∧
    ∀ slots storage key, build? H slots = some storage → ∀ placed ∈ storage.nodes,
      ∃ references : References,
        Schema.references .plain H ⟨.account key, placed.place⟩ placed.node.encode =
          .ok references ∧
        Schema.references .accounts H ⟨.account key, placed.place⟩ placed.node.encode =
          .ok references := by
  have made := ofMap?_eq_some H (shortValues_encodings accounts)
  constructor
  · refine ⟨ofMap H (encodings accounts), (build?_eq H _).trans made, PlacedNode.references H,
      fun placed => .ofChildren ⟨.root, placed.place⟩ placed.node, ?_, ?_⟩
    · intro placed member
      have wellFormed := wellFormed_ofMap?_nodes made member
      exact ⟨PlacedNode.references_eq wellFormed (isAccount_of_mem_held member),
        Schema.references_eq_ok_iff.mpr ⟨_, placed.node.decode_encode wellFormed, rfl⟩,
        PlacedNode.own_references (isAccount_of_mem_held member)⟩
    · intro owned own
      have owned_perm := owned_references_perm H accounts
      have own_perm := own_references_perm H accounts
      refine ⟨owned_perm, ?_, codes_references_perm H accounts, own_perm, ?_⟩
      · rw [owned_perm.nodup_iff]
        exact nodup_storageTries H accounts
      · rw [own_perm.nodup_iff]
        refine .of_map (fun node => node.path.nibbles) ?_
        rw [List.map_map]
        exact (nodup_places_ofMap H _).sublist ((List.dropLast_sublist _).map _)
  · intro slots storage key built placed member
    rw [build?_eq] at built
    have wellFormed := wellFormed_ofMap?_nodes built member
    have plain : Schema.references .plain H ⟨.account key, placed.place⟩ placed.node.encode =
        .ok (.ofChildren ⟨.account key, placed.place⟩ placed.node) :=
      Schema.references_eq_ok_iff.mpr ⟨_, placed.node.decode_encode wellFormed, rfl⟩
    exact ⟨_, plain, Schema.references_of_plain (by simp) plain⟩

end Trie

namespace SharedCode

open Session.SharedLeaf (key code contract holder storage)

/-- One account has storage, and two have the same code. -/
def accounts : Std.TreeMap Digest Account :=
  .ofList [(key 0xa0, holder), (key 0xb1, contract), (key 0xb2, contract)]

/-- What the storage trie is made of. -/
def slots : Std.TreeMap Digest Bytes :=
  .ofList [(key 0xc1, contract.encode), (key 0xc3, contract.encode)]

theorem references_of_holder :
    Trie.build? quickHash slots = some storage ∧
      ∃ trie, Trie.build? quickHash (Trie.encodings accounts) = some trie ∧
      ∃ references : PlacedNode → References,
        (∀ placed ∈ trie.nodes,
          Schema.references .accounts quickHash ⟨.root, placed.place⟩ placed.node.encode =
            .ok (references placed)) ∧
        (trie.nodes.flatMap fun placed =>
            (references placed).nodes.filter fun node => node.path.owner ≠ .root).Perm
          [⟨.subTrie (key 0xa0), storage.root⟩] ∧
        (trie.nodes.flatMap fun placed => (references placed).codes).Perm
          [quickHash code, quickHash code] ∧
        ∀ placed ∈ storage.nodes, ∃ references : References,
          Schema.references .plain quickHash ⟨.account (key 0xa0), placed.place⟩
              placed.node.encode = .ok references ∧
            Schema.references .accounts quickHash ⟨.account (key 0xa0), placed.place⟩
              placed.node.encode = .ok references := by
  obtain ⟨⟨trie, built, references, plain, read, owned, -, codes, -⟩, below⟩ :=
    Trie.references_of_accounts quickHash accounts
  obtain ⟨storage_built, owned_eq, codes_eq⟩ :
      Trie.build? quickHash slots = some storage ∧
        ((accounts.toList.filter fun entry => entry.2.storageRoot ≠ emptyRoot quickHash).map
          fun entry => (⟨.subTrie entry.1, entry.2.storageRoot⟩ : Occurrence)) =
            [⟨.subTrie (key 0xa0), storage.root⟩] ∧
        ((accounts.toList.map fun entry => entry.2.codeHash).filter (· ≠ emptyCode quickHash)) =
          [quickHash code, quickHash code] := by
    decide +kernel
  exact ⟨storage_built, trie, built, references, fun placed member => (read placed member).1,
    owned.trans (.of_eq owned_eq), codes.trans (.of_eq codes_eq),
    below slots storage (key 0xa0) storage_built⟩

end SharedCode

end TrieSync
