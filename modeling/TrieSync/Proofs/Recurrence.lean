import Mathlib.Data.Set.Finite.Lattice
import Mathlib.Data.Set.Finite.List
import TrieSync.Proofs.Verification

/-!
What the held bytes of nodes lead to. A node that is met again below itself, at a place where it is
read in the same way, is met there for ever, so that few nodes lie below one another if only
finitely many are met.
-/

namespace TrieSync

open Relation
open Scheduler

/-- A place that a key of the root trie leads to, or through. At the end of a key a value is the
account under it, and at other places of the root trie no value can be read as an account. -/
def Path.OnKey (path : Path) : Prop :=
  path.owner = .root ∧ path.nibbles.length ≤ Digest.keyLength

instance (path : Path) : Decidable path.OnKey :=
  inferInstanceAs (Decidable (_ ∧ _))

namespace Store

variable {H : Hash} {schema : Schema} {store : Store} {occurrence upper lower : Occurrence}

/-- The bytes that are held for a node, whether or not they are its own, refer to another node that
is not empty. -/
def Follows (H : Hash) (schema : Schema) (store : Store) (upper lower : Occurrence) : Prop :=
  ∃ bytes references, store.node? upper = some bytes ∧
    schema.references H upper.path bytes = .ok references ∧ lower ∈ references.nodes ∧
    lower.digest ≠ emptyRoot H

/-- A node and all that the bytes which are held lead to from there, unless it is the empty root. -/
def reach (H : Hash) (schema : Schema) (store : Store) (occurrence : Occurrence) :
    Set Occurrence :=
  {lower | occurrence.digest ≠ emptyRoot H ∧
    ReflTransGen (store.Follows H schema) occurrence lower}

theorem Reads.follows (h : store.Reads H schema upper lower) :
    store.Follows H schema upper lower := by
  obtain ⟨references, read, member, digest_ne⟩ := h
  obtain ⟨bytes, stored, -, decoded⟩ := readReferences_eq_ok_iff.mp read
  exact ⟨bytes, references, stored, decoded, member, digest_ne⟩

theorem follows_branching (H : Hash) (schema : Schema) (store : Store) :
    Branching (store.Follows H schema) := by
  refine .of_references H schema
    (fun upper references => ∃ bytes, store.node? upper = some bytes ∧
      schema.references H upper.path bytes = .ok references) ?_ ?_ ?_
  · rintro upper references ⟨bytes, -, decoded⟩
    exact ⟨bytes, decoded⟩
  · rintro upper left right ⟨bytes, stored, decoded⟩ ⟨bytes', stored', decoded'⟩
    obtain rfl := Option.some.inj (stored.symm.trans stored')
    exact Except.ok.inj (decoded.symm.trans decoded')
  · rintro upper lower ⟨bytes, references, stored, decoded, member, -⟩
    exact ⟨references, ⟨bytes, stored, decoded⟩, member⟩

theorem injOn_path_reach (H : Hash) (schema : Schema) (store : Store) (occurrence : Occurrence) :
    Set.InjOn Occurrence.path (store.reach H schema occurrence) := by
  rintro left ⟨-, leads⟩ right ⟨-, leads'⟩ path_eq
  exact (follows_branching H schema store).eq_of_path_eq leads leads' path_eq

section byPath

private theorem finite_follows (H : Hash) (schema : Schema) (store : Store) (upper : Occurrence) :
    {lower | store.Follows H schema upper lower}.Finite := by
  by_cases held : ∃ bytes references, store.node? upper = some bytes ∧
      schema.references H upper.path bytes = .ok references
  · obtain ⟨bytes, references, stored, decoded⟩ := held
    refine references.nodes.finite_toSet.subset ?_
    rintro lower ⟨bytes', references', stored', decoded', member, -⟩
    obtain rfl := Option.some.inj (stored.symm.trans stored')
    obtain rfl := Except.ok.inj (decoded.symm.trans decoded')
    exact member
  · convert Set.finite_empty
    refine Set.eq_empty_of_forall_notMem ?_
    rintro lower ⟨bytes, references, stored, decoded, -⟩
    exact held ⟨bytes, references, stored, decoded⟩

/-- In a store keyed by path only what is held for a place leads on from it. -/
theorem finite_reach_of_byPath (keying_eq : store.keying = .byPath) (H : Hash) (schema : Schema)
    (occurrence : Occurrence) : (store.reach H schema occurrence).Finite := by
  have finite_below : (⋃ upper ∈ {upper | upper ∈ store.nodes.keys},
      {lower | store.Follows H schema upper lower}).Finite :=
    store.nodes.keys.finite_toSet.biUnion fun upper _ => finite_follows H schema store upper
  refine (finite_below.insert occurrence).subset ?_
  rintro lower ⟨-, leads⟩
  rcases ReflTransGen.cases_tail leads with rfl | ⟨upper, -, follows⟩
  · exact Set.mem_insert _ _
  · have ⟨bytes, _, stored, _⟩ := follows
    have member : upper ∈ store.nodes.keys := by
      simpa only [key, keying_eq] using key_mem_keys stored
    exact Set.mem_insert_of_mem _ (Set.mem_biUnion member follows)

end byPath

theorem Follows.onKey (h : store.Follows H schema upper lower) (onKey : lower.path.OnKey) :
    upper.path.OnKey := by
  obtain ⟨bytes, references, -, decoded, member, -⟩ := h
  obtain ⟨node, -, tries, nodes_eq, subTrie⟩ := Schema.references_cases decoded
  rw [nodes_eq] at member
  rcases List.mem_append.mp member with child | trie
  · obtain ⟨⟨suffix, digest⟩, -, rfl⟩ := List.mem_map.mp child
    obtain ⟨owner_eq, length_le⟩ := onKey
    rw [Path.nibbles_join, List.length_append] at length_le
    exact ⟨owner_eq, by omega⟩
  · obtain ⟨-, owner, path_eq⟩ := subTrie lower trie
    rw [path_eq] at onKey
    cases onKey.1

theorem onKey_of_leadsTo (leads : ReflTransGen (store.Follows H schema) upper lower)
    (onKey : lower.path.OnKey) : upper.path.OnKey := by
  induction leads with
  | refl => exact onKey
  | tail _ follows ih => exact ih (follows.onKey onKey)

section byDigest

private theorem length_lt_of_mem {node : Node} {value : Nibbles × Bytes} {child : Nibbles × Digest}
    (value_mem : value ∈ node.values) (child_mem : child ∈ node.children) :
    value.1.length < child.1.length := by
  cases node with
  | empty | leaf => cases child_mem
  | extension => cases value_mem
  | branch children held =>
      obtain ⟨bytes, -, rfl⟩ := List.mem_map.mp value_mem
      obtain ⟨entry, -, rfl⟩ := List.mem_map.mp child_mem
      exact Nat.zero_lt_one

private theorem onKey_of_ofValues {path : Path} {node : Node} {found : References}
    {value : Nibbles × Bytes} {values : List (Nibbles × Bytes)} (owner_eq : path.owner = .root)
    (values_eq : node.values = value :: values)
    (found_eq : References.ofValues H path.nibbles node.values = .ok found)
    (member : lower ∈ (References.ofChildren path node ++ found).nodes) :
    path.OnKey ∧ ¬ lower.path.OnKey := by
  have value_mem : value ∈ node.values := values_eq ▸ List.mem_cons_self
  have found_eq' := found_eq
  rw [values_eq] at found_eq'
  obtain ⟨first, rest, first_eq, -⟩ := References.ofValues_cons_eq_ok_iff.mp found_eq'
  obtain ⟨owner, -, key_eq, -⟩ := References.ofValue_eq_ok_iff.mp first_eq
  have length_eq : path.nibbles.length + value.1.length = Digest.keyLength := by
    rw [← List.length_append, ← key_eq, Digest.length_nibbles]
  refine ⟨⟨owner_eq, by omega⟩, ?_⟩
  rintro ⟨lower_root, length_le⟩
  rcases List.mem_append.mp member with child | trie
  · obtain ⟨entry, entry_mem, rfl⟩ := List.mem_map.mp child
    have deeper := length_lt_of_mem value_mem entry_mem
    rw [Path.nibbles_join, List.length_append] at length_le
    omega
  · obtain ⟨owner, path_eq⟩ := References.exists_subTrie_of_ofValues found_eq lower trie
    rw [path_eq] at lower_root
    cases lower_root

/-- If a node refers to another one at the same kind of place, then it refers to its children only,
and does so all over its trie. -/
private theorem nodeReferences_of_onKey_iff {path : Path} {node : Node} {references : References}
    (made : schema.nodeReferences H path node = .ok references)
    (member : lower ∈ references.nodes) (kind_iff : path.OnKey ↔ lower.path.OnKey) :
    lower ∈ (References.ofChildren path node).nodes ∧ ∀ nibbles, ∃ moved,
      schema.nodeReferences H ⟨path.owner, nibbles⟩ node = .ok moved ∧
        moved.nodes = (References.ofChildren ⟨path.owner, nibbles⟩ node).nodes := by
  rcases Schema.nodeReferences_eq_ok_iff.mp made with
    ⟨plain, rfl⟩ | ⟨⟨rfl, owner_eq⟩, found, found_eq, rfl⟩
  · exact ⟨member, fun nibbles =>
      ⟨_, Schema.nodeReferences_eq_ok_iff.mpr (.inl ⟨plain, rfl⟩), rfl⟩⟩
  · cases values_eq : node.values with
    | nil =>
        rw [values_eq] at found_eq
        obtain rfl := Except.ok.inj found_eq
        rw [References.nodes_append, List.append_nil] at member
        refine ⟨member, fun nibbles => ⟨_, Schema.nodeReferences_eq_ok_iff.mpr
          (.inr ⟨⟨rfl, owner_eq⟩, ⟨[], []⟩, ?_, rfl⟩), List.append_nil _⟩⟩
        rw [values_eq]
        rfl
    | cons value values =>
        obtain ⟨onKey, not_onKey⟩ := onKey_of_ofValues owner_eq values_eq found_eq member
        exact absurd (kind_iff.mp onKey) not_onKey

/-- In a store keyed by digest a way that stays at one kind of place can be gone from everywhere in
the trie. -/
private theorem Follows.exists_suffix (keying_eq : store.keying = .byDigest)
    (follows : store.Follows H schema upper lower)
    (kind_iff : upper.path.OnKey ↔ lower.path.OnKey) :
    lower.path.owner = upper.path.owner ∧ ∃ suffix ≠ [], ∀ nibbles,
      store.Follows H schema ⟨⟨upper.path.owner, nibbles⟩, upper.digest⟩
        ⟨⟨upper.path.owner, nibbles ++ suffix⟩, lower.digest⟩ := by
  obtain ⟨bytes, references, stored, decoded, member, digest_ne⟩ := follows
  have not_covers := (Schema.references_below decoded).not_covers lower member
  obtain ⟨node, node_eq, made⟩ := Schema.references_eq_ok_iff.mp decoded
  obtain ⟨child, moved⟩ := nodeReferences_of_onKey_iff made member kind_iff
  obtain ⟨⟨suffix, digest⟩, entry_mem, rfl⟩ := List.mem_map.mp child
  refine ⟨rfl, suffix, ?_, ?_⟩
  · rintro rfl
    have covers : (upper.path.join []).Covers upper.path := by
      rw [Path.join_nil]
      exact .refl _
    exact not_covers covers
  · intro nibbles
    obtain ⟨references, made, nodes_eq⟩ := moved nibbles
    refine ⟨bytes, references, ?_, Schema.references_eq_ok_iff.mpr ⟨node, node_eq, made⟩, ?_,
      digest_ne⟩
    · simpa only [node?, key, keying_eq] using stored
    · rw [nodes_eq]
      exact List.mem_map.mpr ⟨_, entry_mem, rfl⟩

private theorem exists_suffix_of_transGen (keying_eq : store.keying = .byDigest)
    (leads : TransGen (store.Follows H schema) upper lower)
    (kind_iff : upper.path.OnKey ↔ lower.path.OnKey) :
    lower.path.owner = upper.path.owner ∧ ∃ suffix ≠ [], ∀ nibbles,
      TransGen (store.Follows H schema) ⟨⟨upper.path.owner, nibbles⟩, upper.digest⟩
        ⟨⟨upper.path.owner, nibbles ++ suffix⟩, lower.digest⟩ := by
  induction leads with
  | single follows =>
      obtain ⟨owner_eq, suffix, suffix_ne, shifted⟩ := follows.exists_suffix keying_eq kind_iff
      exact ⟨owner_eq, suffix, suffix_ne, fun nibbles => .single (shifted nibbles)⟩
  | @tail between lower leads follows ih =>
      -- The kind of place changes at most once, so it does not change between the ends.
      have upper_iff : upper.path.OnKey ↔ between.path.OnKey :=
        ⟨fun onKey => follows.onKey (kind_iff.mp onKey), onKey_of_leadsTo leads.to_reflTransGen⟩
      obtain ⟨between_owner, front, front_ne, shifted⟩ := ih upper_iff
      obtain ⟨lower_owner, suffix, -, next⟩ :=
        follows.exists_suffix keying_eq (upper_iff.symm.trans kind_iff)
      refine ⟨lower_owner.trans between_owner, front ++ suffix, by simp [front_ne], ?_⟩
      intro nibbles
      have last := next (nibbles ++ front)
      rw [between_owner, List.append_assoc] at last
      exact (shifted nibbles).tail last

/-- What a store keyed by digest meets again below itself, at the same kind of place, it meets
without end. -/
theorem infinite_of_recurrence (keying_eq : store.keying = .byDigest)
    (leads : TransGen (store.Follows H schema) upper lower)
    (kind_iff : upper.path.OnKey ↔ lower.path.OnKey) (digest_eq : upper.digest = lower.digest) :
    {lower | ReflTransGen (store.Follows H schema) upper lower}.Infinite := by
  obtain ⟨-, suffix, suffix_ne, shifted⟩ := exists_suffix_of_transGen keying_eq leads kind_iff
  let again (count : Nat) : Occurrence :=
    ⟨upper.path.join (List.replicate count suffix).flatten, upper.digest⟩
  refine Set.infinite_of_injective_forall_mem (f := again) ?_ ?_
  · intro left right same
    have lengths := congrArg (fun node : Occurrence => node.path.nibbles.length) same
    have positive := List.length_pos_iff.mpr suffix_ne
    simpa [again, positive.ne'] using lengths
  · intro count
    induction count with
    | zero => simpa [again] using ReflTransGen.refl
    | succ count ih =>
        have next := shifted (upper.path.nibbles ++ (List.replicate count suffix).flatten)
        rw [← digest_eq, List.append_assoc, ← List.flatten_concat, ← List.replicate_succ'] at next
        exact ih.trans next.to_reflTransGen

end byDigest

/-- Of finitely many nodes that are met, no more than two for each that is held lead on in turn. -/
theorem not_descends_of_finite (finite : (store.reach H schema occurrence).Finite)
    (digest_ne : occurrence.digest ≠ emptyRoot H) {height : Nat}
    (deep : 2 * store.nodes.size < height) :
    ¬ Descends (store.Reads H schema) height occurrence := by
  intro descends
  have follows_of_reads (upper lower : Occurrence) (reads : store.Reads H schema upper lower) :
      store.Follows H schema upper lower := reads.follows
  have height_le := descends.height_le (fun node => (decide node.path.OnKey, store.key node))
    ?_ (store.nodes.keys.map (Prod.mk true) ++ store.nodes.keys.map (Prod.mk false)) ?_
  · rw [List.length_append, List.length_map, List.length_map, Std.TreeMap.length_keys] at height_le
    omega
  · intro upper lower leads again same
    obtain ⟨kind_eq, key_eq⟩ := Prod.mk.inj same
    cases keying_eq : store.keying with
    | byPath =>
        simp only [key, keying_eq] at key_eq
        subst key_eq
        exact (reads_branching H schema store).not_covers_of_transGen again (.refl _)
    | byDigest =>
        simp only [key, keying_eq, Occurrence.mk.injEq, true_and] at key_eq
        have infinite := infinite_of_recurrence keying_eq
          (TransGen.mono follows_of_reads _ _ again) (decide_eq_decide.mp kind_eq) key_eq
        have upper_leads := ReflTransGen.mono follows_of_reads _ _ leads
        exact infinite (finite.subset fun _ below => ⟨digest_ne, upper_leads.trans below⟩)
  · rintro lower next - ⟨references, read, -, -⟩
    obtain ⟨bytes, stored, -, -⟩ := readReferences_eq_ok_iff.mp read
    have member := key_mem_keys stored
    cases decide lower.path.OnKey with
    | true => exact List.mem_append_left _ (List.mem_map_of_mem member)
    | false => exact List.mem_append_right _ (List.mem_map_of_mem member)

end Store

end TrieSync
