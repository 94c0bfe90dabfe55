import Mathlib.Data.List.Nodup
import TrieSync.Proofs.ExactCheck
import TrieSync.Proofs.Lookup
import TrieSync.Store.Lookup.Loop

namespace TrieSync

namespace Store

variable {H : Hash} {store : Store} {owner : Owner} {taken rest suffix inner : Nibbles}
  {digest : Digest} {lookup : Lookup} {error : ReadError} {node : Node}

/-- A lookup at a node ends before it, fails over it, or goes on from it. -/
theorem descend_cases (store : Store) (H : Hash) (owner : Owner) (rest taken : Nibbles)
    (digest : Digest) :
    store.descend H owner rest taken [] digest = .absent ∨
    (∃ error, store.readReferences H .plain ⟨⟨owner, taken⟩, digest⟩ = .error error ∧
      store.descend H owner rest taken [] digest =
        .after ⟨⟨owner, taken⟩, digest⟩ (.failed error)) ∨
    ∃ node : Node, node.WellFormed ∧ store.descend H owner rest taken [] digest =
      .after ⟨⟨owner, taken⟩, digest⟩ (store.follow H owner rest taken node) := by
  by_cases digest_eq : digest = emptyRoot H
  · exact .inl (by rw [descend, if_pos digest_eq])
  cases read : store.readNode H ⟨⟨owner, taken⟩, digest⟩ with
  | error error =>
      refine .inr (.inl ⟨error, by rw [readReferences, read]; rfl, ?_⟩)
      rw [descend, if_neg digest_eq, read]
  | ok bytes =>
      cases decoded : Node.decode bytes with
      | error cause =>
          refine .inr (.inl ⟨.undecodable ⟨owner, taken⟩ (.node cause), ?_, ?_⟩)
          · simp only [readReferences, read, Schema.references, decoded, bind, Except.bind]
          · rw [descend, if_neg digest_eq, read]
            simp only [decoded]
      | ok node =>
          exact .inr (.inr ⟨node, (Node.decode_eq_ok_iff.mp decoded).1,
            descend_eq_follow digest_eq read decoded⟩)

/-- Nodes are read on the way along the rest of a key, each below the one before, and an error
tells a defect of one of them. -/
structure Descent (H : Hash) (store : Store) (owner : Owner) (taken rest : Nibbles)
    (lookup : Lookup) : Prop where
  onWay : ∀ node ∈ lookup.visited, ∃ front, front <+: rest ∧ node.path = ⟨owner, taken ++ front⟩
  deeper : lookup.visited.Pairwise fun upper lower =>
    upper.path.nibbles.length < lower.path.nibbles.length
  defect : ∀ error, lookup.result = .error error →
    ∃ node ∈ lookup.visited, Defect H .plain store node error

namespace Descent

theorem of_found (value : Option Bytes) : Descent H store owner taken rest (.found value) :=
  ⟨nofun, .nil, nofun⟩

theorem of_failed
    (failed : store.readReferences H .plain ⟨⟨owner, taken⟩, digest⟩ = .error error) :
    Descent H store owner taken rest (.after ⟨⟨owner, taken⟩, digest⟩ (.failed error)) where
  onWay := by
    refine List.forall_mem_singleton.mpr ⟨[], List.nil_prefix, ?_⟩
    rw [List.append_nil]
  deeper := List.pairwise_singleton _ _
  defect error' same := by
    obtain rfl := Except.error.inj same
    exact ⟨_, List.mem_singleton_self _, .of_readReferences failed⟩

theorem length_lt (h : Descent H store owner (taken ++ suffix) inner lookup)
    (suffix_ne : suffix ≠ []) :
    ∀ node ∈ lookup.visited, taken.length < node.path.nibbles.length := by
  intro node member
  obtain ⟨front, -, path_eq⟩ := h.onWay node member
  have positive := List.length_pos_iff.mpr suffix_ne
  rw [path_eq]
  simp only [List.length_append]
  omega

theorem mono (h : Descent H store owner (taken ++ suffix) inner lookup) :
    Descent H store owner taken (suffix ++ inner) lookup where
  onWay node member := by
    obtain ⟨front, begins, path_eq⟩ := h.onWay node member
    refine ⟨suffix ++ front, (List.prefix_append_right_inj suffix).mpr begins, ?_⟩
    rw [path_eq, List.append_assoc]
  deeper := h.deeper
  defect := h.defect

theorem after (h : Descent H store owner taken rest lookup)
    (below : ∀ node ∈ lookup.visited, taken.length < node.path.nibbles.length) (digest : Digest) :
    Descent H store owner taken rest (.after ⟨⟨owner, taken⟩, digest⟩ lookup) where
  onWay := by
    refine List.forall_mem_cons.mpr ⟨⟨[], List.nil_prefix, ?_⟩, h.onWay⟩
    rw [List.append_nil]
  deeper := List.pairwise_cons.mpr ⟨below, h.deeper⟩
  defect error failed := by
    obtain ⟨node, member, defect⟩ := h.defect error failed
    exact ⟨node, List.mem_cons_of_mem _ member, defect⟩

theorem length_le (h : Descent H store owner taken rest lookup) :
    lookup.visited.length ≤ rest.length + 1 := by
  have nodup : (lookup.visited.map fun node => node.path.nibbles.length).Nodup :=
    List.pairwise_map.mpr (h.deeper.imp Nat.ne_of_lt)
  have subset : lookup.visited.map (fun node => node.path.nibbles.length) ⊆
      (List.range (rest.length + 1)).map (taken.length + ·) := by
    intro length member
    obtain ⟨node, visited, rfl⟩ := List.mem_map.mp member
    obtain ⟨front, begins, path_eq⟩ := h.onWay node visited
    have length_le := begins.length_le
    refine List.mem_map.mpr ⟨front.length, List.mem_range.mpr (by omega), ?_⟩
    rw [path_eq, List.length_append]
  simpa using (List.subperm_of_subset nodup subset).length_le

end Descent

theorem descent_descend (store : Store) (H : Hash) (owner : Owner) (rest taken : Nibbles)
    (digest : Digest) :
    Descent H store owner taken rest (store.descend H owner rest taken [] digest) := by
  induction rest, taken, digest using rest_induction with
  | at_node rest taken digest ih =>
      rcases store.descend_cases H owner rest taken digest with
        ends | ⟨error, failed, ends⟩ | ⟨node, wellFormed, goes_on⟩
      · exact ends ▸ .of_found none
      · exact ends ▸ .of_failed failed
      · rw [goes_on]
        cases store.onward H owner rest taken node with
        | @value value follow_eq _ _ =>
            rw [follow_eq]
            exact (Descent.of_found (some value)).after nofun digest
        | nowhere follow_eq _ _ =>
            rw [follow_eq]
            exact (Descent.of_found none).after nofun digest
        | @child suffix inner child rest_eq follow_eq _ link _ =>
            have below := ih wellFormed link rest_eq
            rw [follow_eq, rest_eq]
            exact below.mono.after (below.length_lt (wellFormed.suffix_ne_nil link)) digest

private theorem lookupWithin?_of_decode {rounds : Nat} {bytes : Bytes}
    (digest_ne : digest ≠ emptyRoot H)
    (read : store.readNode H ⟨⟨owner, taken⟩, digest⟩ = .ok bytes)
    (decoded : Node.decode bytes = .ok node)
    (below : ∀ {suffix inner child}, (suffix, child) ∈ node.children → rest = suffix ++ inner →
      store.lookupWithin? H owner (taken ++ rest) rounds (taken ++ suffix) child =
        some (store.descend H owner inner (taken ++ suffix) [] child)) :
    store.lookupWithin? H owner (taken ++ rest) (rounds + 1) taken digest =
      some (store.descend H owner rest taken [] digest) := by
  rw [lookupWithin?, if_neg digest_ne, descend_eq_follow digest_ne read decoded, read]
  simp only [decoded, Nibbles.slice?_append, Option.bind_eq_bind, Option.bind_some]
  cases node with
  | empty | leaf => rfl
  | extension suffix child =>
      by_cases begins : suffix <+: rest
      · obtain ⟨inner, rfl⟩ := begins
        have way_eq := below List.mem_cons_self rfl
        simp only [if_pos (List.prefix_append suffix inner), way_eq, follow, descend_append]
        rfl
      · simp only [if_neg begins, follow, descend_of_not_isPrefix begins]
        rfl
  | branch children value =>
      cases rest with
      | nil => rfl
      | cons nibble inner =>
          cases child_eq : children.get nibble with
          | none =>
              simp only [List.head?_cons, child_eq, follow]
              rfl
          | some child =>
              have way_eq := below (Node.mem_children_branch_iff.mpr ⟨nibble, rfl, child_eq⟩)
                List.singleton_append.symm
              simp only [List.head?_cons, child_eq, Nibbles.push?_val, Option.bind_some, way_eq,
                follow]
              rfl

/-- The loop takes the same way, on which every slice of the key is in range. -/
theorem lookupWithin?_eq (store : Store) (H : Hash) (owner : Owner) (taken : Nibbles)
    (digest : Digest) {rounds : Nat} (enough : rest.length < rounds) :
    store.lookupWithin? H owner (taken ++ rest) rounds taken digest =
      some (store.descend H owner rest taken [] digest) := by
  induction rounds generalizing rest taken digest with
  | zero => exact absurd enough (Nat.not_lt_zero _)
  | succ rounds ih =>
      by_cases digest_eq : digest = emptyRoot H
      · rw [lookupWithin?, descend, if_pos digest_eq, if_pos digest_eq]
        rfl
      cases read : store.readNode H ⟨⟨owner, taken⟩, digest⟩ with
      | error error =>
          rw [lookupWithin?, descend, if_neg digest_eq, if_neg digest_eq, read]
          rfl
      | ok bytes =>
          cases decoded : Node.decode bytes with
          | error cause =>
              rw [lookupWithin?, descend, if_neg digest_eq, if_neg digest_eq, read]
              simp only [decoded]
              rfl
          | ok node =>
              refine lookupWithin?_of_decode digest_eq read decoded fun link rest_eq => ?_
              have wellFormed := (Node.decode_eq_ok_iff.mp decoded).1
              have positive := List.length_pos_iff.mpr (wellFormed.suffix_ne_nil link)
              rw [rest_eq, List.length_append] at enough
              rw [rest_eq, ← List.append_assoc]
              exact ih _ _ (by omega)

/-- Whatever is stored, the loop ends after at most one round more than a key has nibbles, without
a slice out of range, and it reads at most one node in each. -/
theorem lookup?_ends (store : Store) (H : Hash) (owner : Owner) (root key : Digest) :
    (∀ rounds > Digest.keyLength,
      store.lookup? H owner root key rounds = some (store.lookup H owner root key)) ∧
      Descent H store owner [] key.nibbles (store.lookup H owner root key) ∧
      (store.lookup H owner root key).visited.length ≤ Digest.keyLength + 1 := by
  have descent : Descent H store owner [] key.nibbles (store.lookup H owner root key) :=
    descent_descend store H owner key.nibbles [] root
  refine ⟨fun rounds enough => ?_, descent, ?_⟩
  · rw [← key.length_nibbles] at enough
    exact lookupWithin?_eq store H owner [] root enough
  · simpa only [Digest.length_nibbles] using descent.length_le

end Store

end TrieSync
