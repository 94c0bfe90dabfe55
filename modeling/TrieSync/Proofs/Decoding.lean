import TrieSync.References

namespace TrieSync

namespace References

variable {H : Hash}

theorem ofValue_eq_ok_iff {key : Nibbles} {value : Bytes} {references : References} :
    ofValue H key value = .ok references ↔ ∃ owner account, owner.nibbles = key ∧
      Account.decode value = .ok account ∧ ofAccount H owner account = references := by
  unfold ofValue
  cases owner_eq : Digest.ofNibbles? key with
  | none =>
      refine ⟨by simp, ?_⟩
      rintro ⟨owner, account, nibbles_eq, -⟩
      simp [Digest.ofNibbles?_eq_some_iff.mpr nibbles_eq] at owner_eq
  | some owner =>
      have nibbles_eq := Digest.ofNibbles?_eq_some_iff.mp owner_eq
      cases Account.decode value with
      | error cause => simp
      | ok account =>
          simp only [Except.ok.injEq]
          constructor
          · exact fun references_eq => ⟨owner, account, nibbles_eq, rfl, references_eq⟩
          · rintro ⟨other, _, other_eq, rfl, references_eq⟩
            rwa [Digest.nibbles_injective (other_eq.trans nibbles_eq.symm)] at references_eq

theorem ofValues_cons_eq_ok_iff {place suffix : Nibbles} {value : Bytes}
    {values : List (Nibbles × Bytes)} {references : References} :
    ofValues H place ((suffix, value) :: values) = .ok references ↔
      ∃ first rest, ofValue H (place ++ suffix) value = .ok first ∧
        ofValues H place values = .ok rest ∧ first ++ rest = references := by
  rw [ofValues]
  cases ofValue H (place ++ suffix) value with
  | error cause => simp [bind, Except.bind]
  | ok first => cases ofValues H place values <;> simp [bind, Except.bind, pure, Except.pure]

theorem nodes_append (left right : References) :
    (left ++ right).nodes = left.nodes ++ right.nodes := rfl

theorem codes_append (left right : References) :
    (left ++ right).codes = left.codes ++ right.codes := rfl

theorem nodes_ofAccount (owner : Digest) (account : Account) :
    (ofAccount H owner account).nodes = [] ∨
      (ofAccount H owner account).nodes = [⟨.subTrie owner, account.storageRoot⟩] := by
  unfold ofAccount
  split
  · exact .inl rfl
  · exact .inr rfl

theorem exists_subTrie_of_ofValues {place : Nibbles} {values : List (Nibbles × Bytes)}
    {references : References} (h : ofValues H place values = .ok references) :
    ∀ node ∈ references.nodes, ∃ owner, node.path = .subTrie owner := by
  induction values generalizing references with
  | nil =>
      obtain rfl := Except.ok.inj h
      simp
  | cons value values ih =>
      obtain ⟨first, rest, first_eq, rest_eq, rfl⟩ := ofValues_cons_eq_ok_iff.mp h
      obtain ⟨owner, account, -, -, rfl⟩ := ofValue_eq_ok_iff.mp first_eq
      rw [nodes_append]
      refine List.forall_mem_append.mpr ⟨?_, ih rest_eq⟩
      rcases nodes_ofAccount (H := H) owner account with nodes_eq | nodes_eq
      · simp [nodes_eq]
      · rw [nodes_eq, List.forall_mem_singleton]
        exact ⟨owner, rfl⟩

theorem ofValues_moved {place other : Nibbles} {values : List (Nibbles × Bytes)}
    {references moved : References} (h : ofValues H place values = .ok references)
    (h' : ofValues H other values = .ok moved) :
    moved.nodes.map Occurrence.digest = references.nodes.map Occurrence.digest ∧
      moved.codes = references.codes := by
  induction values generalizing references moved with
  | nil =>
      obtain rfl := Except.ok.inj h
      obtain rfl := Except.ok.inj h'
      exact ⟨rfl, rfl⟩
  | cons value values ih =>
      obtain ⟨first, rest, first_eq, rest_eq, rfl⟩ := ofValues_cons_eq_ok_iff.mp h
      obtain ⟨first', rest', first_eq', rest_eq', rfl⟩ := ofValues_cons_eq_ok_iff.mp h'
      obtain ⟨owner, account, -, decoded, rfl⟩ := ofValue_eq_ok_iff.mp first_eq
      obtain ⟨owner', account', -, decoded', rfl⟩ := ofValue_eq_ok_iff.mp first_eq'
      obtain rfl := Except.ok.inj (decoded.symm.trans decoded')
      obtain ⟨digests_eq, codes_eq⟩ := ih rest_eq rest_eq'
      have nodes_eq : (ofAccount H owner' account).nodes.map Occurrence.digest =
          (ofAccount H owner account).nodes.map Occurrence.digest := by
        unfold ofAccount
        split <;> rfl
      rw [nodes_append, nodes_append, codes_append, codes_append, List.map_append,
        List.map_append, nodes_eq, digests_eq, codes_eq]
      exact ⟨rfl, rfl⟩

end References

namespace Schema

variable {H : Hash} {schema : Schema} {path other : Path} {bytes : Bytes}
  {references moved : References}

theorem nodeReferences_eq_ok_iff {node : Node} :
    schema.nodeReferences H path node = .ok references ↔
      (schema = .plain ∨ path.owner ≠ .root) ∧ References.ofChildren path node = references ∨
      (schema = .accounts ∧ path.owner = .root) ∧ ∃ values,
        References.ofValues H path.nibbles node.values = .ok values ∧
        .ofChildren path node ++ values = references := by
  cases schema with
  | plain => simp [nodeReferences]
  | accounts =>
      cases owner_eq : path.owner with
      | account key => simp [nodeReferences, owner_eq]
      | root =>
          cases values_eq : References.ofValues H path.nibbles node.values <;>
            simp [nodeReferences, owner_eq, values_eq, bind, Except.bind, pure, Except.pure]

theorem references_eq_ok_iff :
    schema.references H path bytes = .ok references ↔
      ∃ node, Node.decode bytes = .ok node ∧ schema.nodeReferences H path node = .ok references := by
  unfold Schema.references
  cases Node.decode bytes <;> simp

theorem references_cases
    (h : schema.references H path bytes = .ok references) :
    ∃ node, Node.decode bytes = .ok node ∧ ∃ tries : List Occurrence,
      references.nodes = (References.ofChildren path node).nodes ++ tries ∧
      ∀ trie ∈ tries, path.owner = .root ∧ ∃ owner, trie.path = .subTrie owner := by
  obtain ⟨node, decoded, h⟩ := references_eq_ok_iff.mp h
  refine ⟨node, decoded, ?_⟩
  rcases nodeReferences_eq_ok_iff.mp h with ⟨-, rfl⟩ | ⟨⟨-, owner_eq⟩, values, values_eq, rfl⟩
  · exact ⟨[], by simp, by simp⟩
  · exact ⟨values.nodes, rfl, fun trie member =>
      ⟨owner_eq, References.exists_subTrie_of_ofValues values_eq trie member⟩⟩

theorem references_moved
    (owner_eq : path.owner = .root) (other_eq : other.owner = .root)
    (h : schema.references H path bytes = .ok references)
    (h' : schema.references H other bytes = .ok moved) :
    moved.nodes.map Occurrence.digest = references.nodes.map Occurrence.digest ∧
      moved.codes = references.codes := by
  obtain ⟨node, decoded, h⟩ := references_eq_ok_iff.mp h
  obtain ⟨node', decoded', h'⟩ := references_eq_ok_iff.mp h'
  obtain rfl := Except.ok.inj (decoded.symm.trans decoded')
  have children_eq : (References.ofChildren other node).nodes.map Occurrence.digest =
      (References.ofChildren path node).nodes.map Occurrence.digest := by
    simp [References.ofChildren]
  rcases nodeReferences_eq_ok_iff.mp h with ⟨plain, rfl⟩ | ⟨⟨rfl, -⟩, values, values_eq, rfl⟩
  · obtain rfl := plain.resolve_right (not_not_intro owner_eq)
    rcases nodeReferences_eq_ok_iff.mp h' with ⟨-, rfl⟩ | ⟨⟨accounts, -⟩, -⟩
    · exact ⟨children_eq, rfl⟩
    · simp at accounts
  · rcases nodeReferences_eq_ok_iff.mp h' with ⟨plain, -⟩ | ⟨-, values', values_eq', rfl⟩
    · simp [other_eq] at plain
    · obtain ⟨digests_eq, codes_eq⟩ := References.ofValues_moved values_eq values_eq'
      rw [References.nodes_append, References.nodes_append, References.codes_append,
        References.codes_append, List.map_append, List.map_append, children_eq, digests_eq, codes_eq]
      exact ⟨rfl, rfl⟩

theorem references_plain (h : schema.references H path bytes = .ok references) :
    ∃ fewer : References, Schema.references .plain H path bytes = .ok fewer ∧
      fewer.nodes ⊆ references.nodes ∧ fewer.codes = [] := by
  obtain ⟨node, decoded, h⟩ := references_eq_ok_iff.mp h
  refine ⟨.ofChildren path node, references_eq_ok_iff.mpr ⟨node, decoded, rfl⟩, ?_, rfl⟩
  rcases nodeReferences_eq_ok_iff.mp h with ⟨-, rfl⟩ | ⟨-, values, -, rfl⟩
  · exact List.Subset.refl _
  · exact List.subset_append_left _ _

theorem references_of_plain (owner_ne : path.owner ≠ .root)
    (h : Schema.references .plain H path bytes = .ok references) :
    schema.references H path bytes = .ok references := by
  obtain ⟨node, decoded, h⟩ := references_eq_ok_iff.mp h
  obtain rfl := Except.ok.inj h
  exact references_eq_ok_iff.mpr
    ⟨node, decoded, nodeReferences_eq_ok_iff.mpr (.inl ⟨.inr owner_ne, rfl⟩)⟩

theorem references_plain_moved (other : Path)
    (h : Schema.references .plain H path bytes = .ok references) :
    ∃ moved : References, Schema.references .plain H other bytes = .ok moved ∧
      moved.nodes.map Occurrence.digest = references.nodes.map Occurrence.digest ∧
      moved.codes = references.codes := by
  obtain ⟨node, decoded, h⟩ := references_eq_ok_iff.mp h
  obtain rfl := Except.ok.inj h
  refine ⟨.ofChildren other node, references_eq_ok_iff.mpr ⟨node, decoded, rfl⟩, ?_, rfl⟩
  simp [References.ofChildren]

end Schema

end TrieSync
