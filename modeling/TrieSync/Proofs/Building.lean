import Mathlib.Data.List.FinRange
import Mathlib.Data.List.Flatten
import Mathlib.Data.List.Perm.Basic
import TrieSync.Proofs.Entries
import TrieSync.Proofs.NodeCodec
import TrieSync.Trie

namespace TrieSync

namespace Trie

/-- The trie that some nibbles lead to from a node, and the entries it is made of, without these
nibbles. -/
structure Part where
  suffix : Nibbles
  entries : List (Nibbles × Bytes)
  trie : Trie

/-- The entries of a part with the nibbles that lead to it. -/
def Part.outer (part : Part) : List (Nibbles × Bytes) :=
  part.entries.map fun (key, value) => (part.suffix ++ key, value)

/-- How a trie is made up of entries: some are in the node on top, and the others in its parts. -/
inductive Built (H : Hash) : Nibbles → List (Nibbles × Bytes) → Trie → Prop
  | assemble {place : Nibbles} {entries : List (Nibbles × Bytes)} {node : Node} (parts : List Part)
      (entries_ne : entries ≠ [])
      (children_eq : node.children = parts.map fun part => (part.suffix, part.trie.root))
      (suffix_ne : ∀ part ∈ parts, part.suffix ≠ [])
      (perm : entries.Perm (node.values ++ parts.flatMap Part.outer))
      (built : ∀ part ∈ parts, Built H (place ++ part.suffix) part.entries part.trie) :
      Built H place entries (top H place node (parts.flatMap fun part => part.trie.nodes))

variable {H : Hash} {place : Nibbles} {entries : List (Nibbles × Bytes)} {trie : Trie}

theorem mem_under_iff {nibble : Nibble} {key : Nibbles} {value : Bytes} :
    (key, value) ∈ under nibble entries ↔ (nibble :: key, value) ∈ entries := by
  simp only [under, List.mem_filterMap, Prod.exists]
  constructor
  · rintro ⟨other, found, member, same⟩
    cases other with
    | nil => simp at same
    | cons first rest =>
        dsimp only at same
        split at same
        · rename_i first_eq
          obtain ⟨rfl, rfl⟩ := Prod.mk.inj (Option.some.inj same)
          exact first_eq ▸ member
        · simp at same
  · exact fun member => ⟨_, _, member, if_pos rfl⟩

private theorem foldl_commonPrefix_isPrefix (entries : List (Nibbles × Bytes)) (shared : Nibbles) :
    entries.foldl (fun shared entry => Nibbles.commonPrefix shared entry.1) shared <+: shared ∧
      ∀ entry ∈ entries,
        entries.foldl (fun shared entry => Nibbles.commonPrefix shared entry.1) shared <+:
          entry.1 := by
  induction entries generalizing shared with
  | nil => simp
  | cons first rest ih =>
      obtain ⟨of_shared, of_rest⟩ := ih (Nibbles.commonPrefix shared first.1)
      refine ⟨of_shared.trans (Nibbles.commonPrefix_isPrefix_left _ _), ?_⟩
      rintro entry (_ | ⟨_, member⟩)
      · rw [List.foldl_cons, Nibbles.commonPrefix_comm] at *
        exact of_shared.trans (Nibbles.commonPrefix_isPrefix_left _ _)
      · exact of_rest entry member

theorem sharedPrefix_isPrefix {entry : Nibbles × Bytes} (member : entry ∈ entries) :
    sharedPrefix entries <+: entry.1 := by
  cases entries with
  | nil => simp at member
  | cons first rest =>
      obtain ⟨of_first, of_rest⟩ := foldl_commonPrefix_isPrefix rest first.1
      rcases List.mem_cons.mp member with rfl | member
      · exact of_first
      · exact of_rest entry member

theorem isPrefix_commonPrefix {front left right : Nibbles} (of_left : front <+: left)
    (of_right : front <+: right) : front <+: Nibbles.commonPrefix left right := by
  obtain ⟨left, rfl⟩ := of_left
  obtain ⟨right, rfl⟩ := of_right
  induction front with
  | nil => exact List.nil_prefix
  | cons nibble front ih =>
      rw [List.cons_append, List.cons_append, Nibbles.commonPrefix, if_pos rfl]
      exact (List.prefix_cons_inj nibble).mpr ih

theorem isPrefix_sharedPrefix {front : Nibbles} (entries_ne : entries ≠ [])
    (begins : ∀ entry ∈ entries, front <+: entry.1) : front <+: sharedPrefix entries := by
  obtain ⟨first, rest, rfl⟩ := List.exists_cons_of_ne_nil entries_ne
  obtain ⟨of_first, of_rest⟩ := List.forall_mem_cons.mp begins
  rw [sharedPrefix]
  clear entries_ne begins
  generalize first.1 = shared at of_first ⊢
  induction rest generalizing shared with
  | nil => exact of_first
  | cons next rest ih =>
      obtain ⟨of_next, of_rest⟩ := List.forall_mem_cons.mp of_rest
      exact ih of_rest _ (isPrefix_commonPrefix of_first of_next)

theorem sharedPrefix_drop (entries_ne : entries ≠ []) :
    sharedPrefix (entries.map fun (key, value) =>
      (key.drop (sharedPrefix entries).length, value)) = [] := by
  have begins : ∀ entry ∈ entries, sharedPrefix entries <+: entry.1 :=
    fun _ => sharedPrefix_isPrefix
  generalize dropped_eq : (entries.map fun (key, value) =>
    (key.drop (sharedPrefix entries).length, value)) = dropped
  have longer : sharedPrefix entries ++ sharedPrefix dropped <+: sharedPrefix entries := by
    refine isPrefix_sharedPrefix entries_ne fun entry member => ?_
    obtain ⟨rest, rest_eq⟩ := begins entry member
    have dropped_mem : (rest, entry.2) ∈ dropped := by
      rw [← dropped_eq]
      exact List.mem_map.mpr ⟨entry, member, by simp [← rest_eq]⟩
    rw [← rest_eq, List.prefix_append_right_inj]
    exact sharedPrefix_isPrefix dropped_mem
  have length_le := longer.length_le
  rw [List.length_append] at length_le
  exact List.length_eq_zero_iff.mp (by omega)

/-- Keys are all different, and all of one length. -/
structure Keyed (length : Nat) (entries : List (Nibbles × Bytes)) : Prop where
  length_eq : ∀ entry ∈ entries, entry.1.length = length
  distinct : entries.Pairwise fun left right => left.1 ≠ right.1

namespace Keyed

variable {length : Nat}

theorem under (h : Keyed (length + 1) entries) (nibble : Nibble) :
    Keyed length (Trie.under nibble entries) where
  length_eq := by
    rintro ⟨key, value⟩ member
    have key_length := h.length_eq _ (mem_under_iff.mp member)
    simpa using key_length
  distinct := by
    refine h.distinct.filterMap _ ?_
    rintro ⟨_ | ⟨first, key⟩, value⟩ ⟨_ | ⟨first', key'⟩, value'⟩ keys_ne entry found entry' found'
    all_goals
      simp only [Option.ite_none_right_eq_some, Option.some.injEq, reduceCtorEq] at found found'
    obtain ⟨rfl, rfl⟩ := found
    obtain ⟨rfl, rfl⟩ := found'
    simpa using keys_ne

theorem keys_ne (h : Keyed (length + 1) entries) : ∀ entry ∈ entries, entry.1 ≠ [] := by
  intro entry member key_eq
  have key_length := h.length_eq entry member
  simp [key_eq] at key_length

theorem length_ne_zero {first second : Nibbles × Bytes} {rest : List (Nibbles × Bytes)}
    (h : Keyed length (first :: second :: rest)) : length ≠ 0 := by
  rintro rfl
  have first_nil := List.length_eq_zero_iff.mp (h.length_eq first (by simp))
  have second_nil := List.length_eq_zero_iff.mp (h.length_eq second (by simp))
  exact (List.pairwise_cons.mp h.distinct).1 second (by simp) (first_nil.trans second_nil.symm)

theorem drop (h : Keyed length entries) {shared : Nibbles}
    (begins : ∀ entry ∈ entries, shared <+: entry.1) :
    Keyed (length - shared.length)
      (entries.map fun (key, value) => (key.drop shared.length, value)) where
  length_eq := by
    rintro _ member
    obtain ⟨entry, entry_mem, rfl⟩ := List.mem_map.mp member
    rw [List.length_drop, h.length_eq entry entry_mem]
  distinct := by
    refine List.pairwise_map.mpr (h.distinct.imp_of_mem ?_)
    rintro ⟨left, value⟩ ⟨right, value'⟩ left_mem right_mem keys_ne same
    obtain ⟨left, rfl⟩ := begins _ left_mem
    obtain ⟨right, rfl⟩ := begins _ right_mem
    simp at keys_ne same
    exact keys_ne same

end Keyed

theorem map_append_drop {shared : Nibbles} (begins : ∀ entry ∈ entries, shared <+: entry.1) :
    (entries.map fun (key, value) => (key.drop shared.length, value)).map
      (fun (key, value) => (shared ++ key, value)) = entries := by
  rw [List.map_map]
  refine (List.map_congr_left ?_).trans (List.map_id entries)
  rintro ⟨key, value⟩ member
  obtain ⟨rest, rfl⟩ := begins _ member
  simp

theorem Built.entries_ne (h : Built H place entries trie) : entries ≠ [] := by
  cases h
  assumption

theorem built_leaf (H : Hash) (place key : Nibbles) (value : Bytes) :
    Built H place [(key, value)] (top H place (.leaf key value) []) :=
  .assemble [] (by simp) rfl (by simp) (by simp [Node.values]) (by simp)

theorem Built.extension {shared : Nibbles} (shared_ne : shared ≠ [])
    (h : Built H (place ++ shared) entries trie) :
    Built H place (entries.map fun (key, value) => (shared ++ key, value))
      (top H place (.extension shared trie.root) trie.nodes) := by
  have built : Built H place (entries.map fun (key, value) => (shared ++ key, value))
      (top H place (.extension shared trie.root)
        ([(⟨shared, entries, trie⟩ : Part)].flatMap fun part => part.trie.nodes)) := by
    refine .assemble [⟨shared, entries, trie⟩] ?_ rfl (by simpa using shared_ne) ?_
      (by simpa using h)
    · simpa using h.entries_ne
    · simp [Node.values, Part.outer]
  simpa using built

/-- The parts of entries by the first nibbles of their keys, apart from those without entries. -/
def parts (trieOf : Nibble → List (Nibbles × Bytes) → Trie) (entries : List (Nibbles × Bytes)) :
    List Part :=
  (List.finRange 16).filterMap fun nibble =>
    if under nibble entries = [] then none
    else some ⟨[nibble], under nibble entries, trieOf nibble (under nibble entries)⟩

private theorem flatMap_ite_eq {α β : Type} [DecidableEq α] {list : List α} {item : α} (f : α → β)
    (nodup : list.Nodup) (member : item ∈ list) :
    (list.flatMap fun other => if item = other then [f other] else []) = [f item] := by
  induction list with
  | nil => simp at member
  | cons first rest ih =>
      obtain ⟨first_absent, rest_nodup⟩ := List.nodup_cons.mp nodup
      rw [List.flatMap_cons]
      by_cases same : item = first
      · subst same
        have rest_nil : (rest.flatMap fun other => if item = other then [f other] else []) = [] :=
          List.flatMap_eq_nil_iff.mpr fun other other_mem =>
            if_neg fun (same : item = other) => first_absent (same ▸ other_mem)
        rw [if_pos rfl, rest_nil]
        rfl
      · rw [if_neg same, List.nil_append]
        exact ih rest_nodup ((List.mem_cons.mp member).resolve_left same)

theorem perm_flatMap_parts (trieOf : Nibble → List (Nibbles × Bytes) → Trie)
    (keys_ne : ∀ entry ∈ entries, entry.1 ≠ []) :
    entries.Perm ((parts trieOf entries).flatMap Part.outer) := by
  have parts_eq : (parts trieOf entries).flatMap Part.outer = (List.finRange 16).flatMap
      fun nibble => (under nibble entries).map fun (key, value) => (nibble :: key, value) := by
    rw [parts, List.filterMap_eq_flatMap_toList, List.flatMap_assoc]
    refine congrArg (List.flatMap · _) (funext fun nibble => ?_)
    split
    · rename_i part_eq
      simp [part_eq]
    · simp [Part.outer]
  rw [parts_eq]
  clear parts_eq
  induction entries with
  | nil => simp [under]
  | cons entry entries ih =>
      obtain ⟨_ | ⟨first, key⟩, value⟩ := entry
      · exact absurd rfl (keys_ne _ List.mem_cons_self)
      · have under_cons (nibble : Nibble) :
            (under nibble ((first :: key, value) :: entries)).map
              (fun (key, value) => (nibble :: key, value)) =
            (if first = nibble then [(nibble :: key, value)] else []) ++
              (under nibble entries).map fun (key, value) => (nibble :: key, value) := by
          by_cases same : first = nibble
          · simp [under, same]
          · simp [under, same]
        simp only [under_cons]
        refine .trans ?_ (List.flatMap_append_perm _ _ _)
        rw [flatMap_ite_eq _ (List.nodup_finRange 16) (List.mem_finRange first)]
        exact (ih fun entry member => keys_ne entry (List.mem_cons_of_mem _ member)).cons _

theorem mem_parts_iff {trieOf : Nibble → List (Nibbles × Bytes) → Trie} {part : Part} :
    part ∈ parts trieOf entries ↔ ∃ nibble, under nibble entries ≠ [] ∧
      part = ⟨[nibble], under nibble entries, trieOf nibble (under nibble entries)⟩ := by
  simp only [parts, List.mem_filterMap, List.mem_finRange, true_and,
    Option.ite_none_left_eq_some, Option.some.injEq]
  exact exists_congr fun nibble => and_congr_right fun _ => eq_comm

theorem built_branch {trieOf : Nibble → List (Nibbles × Bytes) → Trie} (entries_ne : entries ≠ [])
    (keys_ne : ∀ entry ∈ entries, entry.1 ≠ [])
    (built : ∀ nibble, under nibble entries ≠ [] →
      Built H (place ++ [nibble]) (under nibble entries) (trieOf nibble (under nibble entries))) :
    Built H place entries (top H place (.branch
      (.ofFn fun nibble => if under nibble entries = [] then none
        else some (trieOf nibble (under nibble entries)).root) none)
      ((parts trieOf entries).flatMap fun part => part.trie.nodes)) := by
  refine .assemble (parts trieOf entries) entries_ne ?_ ?_ (perm_flatMap_parts trieOf keys_ne) ?_
  · rw [Node.children, Children.present, parts, List.map_filterMap, List.map_filterMap]
    refine List.filterMap_congr fun nibble _ => ?_
    rw [Children.get_ofFn]
    split <;> rfl
  · intro part member
    obtain ⟨nibble, -, rfl⟩ := mem_parts_iff.mp member
    simp
  · intro part member
    obtain ⟨nibble, part_ne, rfl⟩ := mem_parts_iff.mp member
    exact built nibble part_ne

/-- The trie of the part that a nibble leads to, unless it has no entries. -/
private def partOf (trieOf : Nibble → List (Nibbles × Bytes) → Trie)
    (entries : List (Nibbles × Bytes)) (nibble : Nibble) : Option Trie :=
  match under nibble entries with
  | [] => none
  | part => some (trieOf nibble part)

private theorem partOf_eq (trieOf : Nibble → List (Nibbles × Bytes) → Trie)
    (entries : List (Nibbles × Bytes)) (nibble : Nibble) :
    partOf trieOf entries nibble =
      if under nibble entries = [] then none
      else some (trieOf nibble (under nibble entries)) := by
  unfold partOf
  split
  · rename_i part_eq
    rw [if_pos part_eq]
  · rename_i part_ne
    rw [if_neg part_ne]

private theorem roots_parts (trieOf : Nibble → List (Nibbles × Bytes) → Trie)
    (entries : List (Nibbles × Bytes)) :
    (Vector.ofFn (partOf trieOf entries)).map (Option.map root) =
      .ofFn fun nibble => if under nibble entries = [] then none
        else some (trieOf nibble (under nibble entries)).root := by
  refine Vector.ext fun index bound => ?_
  rw [Vector.getElem_map, Vector.getElem_ofFn, Vector.getElem_ofFn, partOf_eq]
  split <;> rfl

private theorem nodes_parts (trieOf : Nibble → List (Nibbles × Bytes) → Trie)
    (entries : List (Nibbles × Bytes)) :
    ((Vector.ofFn (partOf trieOf entries)).toList.flatMap fun part => (part.map nodes).getD []) =
      (parts trieOf entries).flatMap fun part => part.trie.nodes := by
  rw [Vector.toList_ofFn, List.ofFn_eq_map, List.flatMap_map, parts,
    List.filterMap_eq_flatMap_toList, List.flatMap_assoc]
  refine congrArg (List.flatMap · _) (funext fun nibble => ?_)
  rw [partOf_eq]
  split <;> simp

theorem ofSuffixes_cons_cons (H : Hash) (height : Nat) (place : Nibbles)
    (first second : Nibbles × Bytes) (rest : List (Nibbles × Bytes)) :
    ofSuffixes H (height + 1) place (first :: second :: rest) =
      let entries := first :: second :: rest
      let trieOf (nibble : Nibble) := ofSuffixes H height (place ++ [nibble])
      let shared := sharedPrefix entries
      let part := ofSuffixes H height (place ++ shared)
        (entries.map fun (key, value) => (key.drop shared.length, value))
      if shared = [] then
        top H place (.branch
          (.ofFn fun nibble => if under nibble entries = [] then none
            else some (trieOf nibble (under nibble entries)).root) none)
          ((parts trieOf entries).flatMap fun part => part.trie.nodes)
      else top H place (.extension shared part.root) part.nodes := by
  dsimp only
  rw [ofSuffixes]
  · split
    · rename_i shared_eq
      rw [if_pos shared_eq]
      exact congrArg₂ (fun children below => top H place (.branch children none) below)
        (roots_parts _ _) (nodes_parts _ _)
    · rename_i shared_ne
      rw [if_neg shared_ne]
  · simp
  · simp

/-- What holds of leaves, and of branches and extensions if it holds of what is below them, holds of
the trie of entries with different keys of one length. -/
theorem ofSuffixes_induction {motive : Nat → Nibbles → List (Nibbles × Bytes) → Trie → Prop}
    (leaf : ∀ {height place key value},
      motive height place [(key, value)] (top H place (.leaf key value) []))
    (branch : ∀ {height length place entries}, Keyed (length + 1) entries → 2 ≤ entries.length →
      sharedPrefix entries = [] →
      (∀ nibble, under nibble entries ≠ [] →
        motive height (place ++ [nibble]) (under nibble entries)
          (ofSuffixes H height (place ++ [nibble]) (under nibble entries))) →
      motive (height + 1) place entries (top H place (.branch
        (.ofFn fun nibble => if under nibble entries = [] then none
          else some (ofSuffixes H height (place ++ [nibble]) (under nibble entries)).root) none)
        ((parts (fun nibble => ofSuffixes H height (place ++ [nibble])) entries).flatMap
          fun part => part.trie.nodes)))
    (extension : ∀ {height place entries rest trie}, sharedPrefix entries ≠ [] →
      rest.map (fun (key, value) => (sharedPrefix entries ++ key, value)) = entries →
      2 ≤ rest.length → sharedPrefix rest = [] →
      motive height (place ++ sharedPrefix entries) rest trie →
      motive (height + 1) place entries
        (top H place (.extension (sharedPrefix entries) trie.root) trie.nodes))
    {height length : Nat} (place : Nibbles) (keyed : Keyed length entries)
    (entries_ne : entries ≠ []) (length_le : length ≤ height) :
    motive height place entries (ofSuffixes H height place entries) := by
  induction height generalizing place entries length with
  | zero =>
      match entries, keyed with
      | [], _ => exact absurd rfl entries_ne
      | [(key, value)], _ => exact leaf
      | _ :: _ :: _, keyed => exact absurd (Nat.le_zero.mp length_le) keyed.length_ne_zero
  | succ height ih =>
      match entries, keyed with
      | [], _ => exact absurd rfl entries_ne
      | [(key, value)], _ => exact leaf
      | first :: second :: rest, keyed =>
          obtain ⟨length, rfl⟩ := Nat.exists_eq_succ_of_ne_zero keyed.length_ne_zero
          have two_le : 2 ≤ (first :: second :: rest).length := by simp
          rw [ofSuffixes_cons_cons]
          generalize first :: second :: rest = entries at keyed entries_ne two_le ⊢
          dsimp only
          split
          · rename_i shared_eq
            exact branch keyed two_le shared_eq fun nibble part_ne =>
              ih _ (keyed.under nibble) part_ne (Nat.le_of_succ_le_succ length_le)
          · rename_i shared_ne
            have begins : ∀ entry ∈ entries, sharedPrefix entries <+: entry.1 :=
              fun _ => sharedPrefix_isPrefix
            have shared_length := List.length_pos_iff.mpr shared_ne
            exact extension shared_ne (map_append_drop begins) (by simpa using two_le)
              (sharedPrefix_drop entries_ne)
              (ih _ (keyed.drop begins) (by simpa using entries_ne) (by omega))

theorem built_ofSuffixes {height length : Nat} (keyed : Keyed length entries)
    (entries_ne : entries ≠ []) (length_le : length ≤ height) :
    Built H place entries (ofSuffixes H height place entries) := by
  refine ofSuffixes_induction (motive := fun _ place entries trie => Built H place entries trie)
    ?_ ?_ ?_ place keyed entries_ne length_le
  · intro height place key value
    exact built_leaf H place key value
  · intro height length place entries keyed two_le shared_eq built
    exact built_branch (List.ne_nil_of_length_pos (by omega)) keyed.keys_ne built
  · intro height place entries rest trie shared_ne entries_eq two_le rest_shared built
    have extended := built.extension shared_ne
    rwa [entries_eq] at extended

namespace Built

variable {other : Nibbles} {node : Node}

theorem exists_top (h : Built H place entries trie) :
    ∃ node, ⟨place, node⟩ ∈ trie.nodes ∧ node.digest H = trie.root := by
  cases h
  exact ⟨_, List.mem_append_right _ List.mem_cons_self, rfl⟩

theorem mem_nodes_iff {parts : List Part} {top_node : Node} {placed : PlacedNode} :
    placed ∈ (top H place top_node (parts.flatMap fun part => part.trie.nodes)).nodes ↔
      placed = ⟨place, top_node⟩ ∨ ∃ part ∈ parts, placed ∈ part.trie.nodes := by
  simp [top, or_comm]

theorem exists_child (h : Built H place entries trie) (member : ⟨other, node⟩ ∈ trie.nodes)
    {suffix : Nibbles} {digest : Digest} (link : (suffix, digest) ∈ node.children) :
    ∃ lower, ⟨other ++ suffix, lower⟩ ∈ trie.nodes ∧ lower.digest H = digest := by
  induction h with
  | assemble parts _ children_eq _ _ built ih =>
      rcases mem_nodes_iff.mp member with same | ⟨part, part_mem, member⟩
      · obtain ⟨rfl, rfl⟩ := PlacedNode.mk.inj same
        rw [children_eq] at link
        obtain ⟨part, part_mem, link_eq⟩ := List.mem_map.mp link
        obtain ⟨rfl, rfl⟩ := Prod.mk.inj link_eq
        obtain ⟨lower, lower_mem, digest_eq⟩ := (built part part_mem).exists_top
        exact ⟨lower, mem_nodes_iff.mpr (.inr ⟨part, part_mem, lower_mem⟩), digest_eq⟩
      · obtain ⟨lower, lower_mem, digest_eq⟩ := ih part part_mem member
        exact ⟨lower, mem_nodes_iff.mpr (.inr ⟨part, part_mem, lower_mem⟩), digest_eq⟩

theorem suffix_ne_nil (h : Built H place entries trie) (member : ⟨other, node⟩ ∈ trie.nodes)
    {suffix : Nibbles} {digest : Digest} (link : (suffix, digest) ∈ node.children) :
    suffix ≠ [] := by
  induction h with
  | assemble parts _ children_eq suffix_ne _ _ ih =>
      rcases mem_nodes_iff.mp member with same | ⟨part, part_mem, member⟩
      · obtain ⟨rfl, rfl⟩ := PlacedNode.mk.inj same
        rw [children_eq] at link
        obtain ⟨part, part_mem, link_eq⟩ := List.mem_map.mp link
        obtain ⟨rfl, rfl⟩ := Prod.mk.inj link_eq
        exact suffix_ne part part_mem
      · exact ih part part_mem member

theorem exists_entry (h : Built H place entries trie) (member : ⟨other, node⟩ ∈ trie.nodes)
    {suffix : Nibbles} {value : Bytes} (held : (suffix, value) ∈ node.values) :
    ∃ key, (key, value) ∈ entries ∧ place ++ key = other ++ suffix := by
  induction h with
  | assemble parts _ _ _ perm _ ih =>
      rcases mem_nodes_iff.mp member with same | ⟨part, part_mem, member⟩
      · obtain ⟨rfl, rfl⟩ := PlacedNode.mk.inj same
        exact ⟨suffix, perm.mem_iff.mpr (List.mem_append_left _ held), rfl⟩
      · obtain ⟨key, key_mem, key_eq⟩ := ih part part_mem member
        refine ⟨part.suffix ++ key, perm.mem_iff.mpr (List.mem_append_right _ ?_), ?_⟩
        · exact List.mem_flatMap.mpr ⟨part, part_mem, List.mem_map.mpr ⟨_, key_mem, rfl⟩⟩
        · rw [← List.append_assoc, key_eq]

theorem exists_holder (h : Built H place entries trie) {key : Nibbles} {value : Bytes}
    (entry : (key, value) ∈ entries) :
    ∃ other node suffix, ⟨other, node⟩ ∈ trie.nodes ∧ (suffix, value) ∈ node.values ∧
      place ++ key = other ++ suffix := by
  induction h generalizing key with
  | assemble parts _ _ _ perm _ ih =>
      rcases List.mem_append.mp (perm.mem_iff.mp entry) with held | below
      · exact ⟨_, _, key, mem_nodes_iff.mpr (.inl rfl), held, rfl⟩
      · obtain ⟨part, part_mem, below⟩ := List.mem_flatMap.mp below
        obtain ⟨⟨rest, _⟩, rest_mem, same⟩ := List.mem_map.mp below
        obtain ⟨rfl, rfl⟩ := Prod.mk.inj same
        obtain ⟨other, node, suffix, member, held, key_eq⟩ := ih part part_mem rest_mem
        refine ⟨other, node, suffix, mem_nodes_iff.mpr (.inr ⟨part, part_mem, member⟩), held, ?_⟩
        rw [← key_eq, List.append_assoc]

theorem holds_or_leads (h : Built H place entries trie) (member : ⟨other, node⟩ ∈ trie.nodes) :
    node.values ≠ [] ∨ node.children ≠ [] := by
  induction h with
  | assemble parts entries_ne children_eq _ perm _ ih =>
      rcases mem_nodes_iff.mp member with same | ⟨part, part_mem, member⟩
      · obtain ⟨rfl, rfl⟩ := PlacedNode.mk.inj same
        by_contra neither
        obtain ⟨values_nil, children_nil⟩ := not_or.mp neither
        rw [children_eq, ne_eq, not_not, List.map_eq_nil_iff] at children_nil
        rw [not_not.mp values_nil, children_nil] at perm
        exact entries_ne perm.eq_nil
      · exact ih part part_mem member

theorem ne_empty (h : Built H place entries trie) (member : ⟨other, node⟩ ∈ trie.nodes) :
    node ≠ .empty := by
  rintro rfl
  rcases h.holds_or_leads member with values_ne | children_ne
  · exact values_ne rfl
  · exact children_ne rfl

theorem wellFormed (h : Built H place entries trie) (member : ⟨other, node⟩ ∈ trie.nodes)
    (encodable : node.Encodable) : node.WellFormed := by
  cases node with
  | extension key child => exact ⟨h.suffix_ne_nil member List.mem_cons_self, encodable⟩
  | empty | leaf | branch => exact encodable

theorem length_le {total : Nat} (h : Built H place entries trie)
    (keyed : ∀ entry ∈ entries, place.length + entry.1.length = total)
    (member : ⟨other, node⟩ ∈ trie.nodes) : other.length ≤ total := by
  induction h with
  | assemble parts entries_ne _ _ perm _ ih =>
      rcases mem_nodes_iff.mp member with same | ⟨part, part_mem, member⟩
      · obtain ⟨rfl, rfl⟩ := PlacedNode.mk.inj same
        obtain ⟨entry, entry_mem⟩ := List.exists_mem_of_ne_nil _ entries_ne
        exact keyed entry entry_mem ▸ Nat.le_add_right _ _
      · refine ih part part_mem (fun entry entry_mem => ?_) member
        have outer_mem := perm.mem_iff.mpr (List.mem_append_right _
          (List.mem_flatMap.mpr ⟨part, part_mem, List.mem_map_of_mem entry_mem⟩))
        simpa [Nat.add_assoc] using keyed _ outer_mem

/-- What holds on top, and of everything that a node for which it holds refers to, holds of all
nodes. -/
theorem forall_nodes {P : Nibbles → Digest → Prop} (h : Built H place entries trie)
    (on_top : P place trie.root)
    (down : ∀ {other node suffix digest}, ⟨other, node⟩ ∈ trie.nodes → P other (node.digest H) →
      (suffix, digest) ∈ node.children → P (other ++ suffix) digest) :
    ∀ {other node}, ⟨other, node⟩ ∈ trie.nodes → P other (node.digest H) := by
  induction h with
  | assemble parts _ children_eq _ _ _ ih =>
      intro other node member
      rcases mem_nodes_iff.mp member with same | ⟨part, part_mem, member⟩
      · obtain ⟨rfl, rfl⟩ := PlacedNode.mk.inj same
        exact on_top
      · refine ih part part_mem (down (mem_nodes_iff.mpr (.inl rfl)) on_top ?_) ?_ member
        · rw [children_eq]
          exact List.mem_map.mpr ⟨part, part_mem, rfl⟩
        · exact fun member => down (mem_nodes_iff.mpr (.inr ⟨part, part_mem, member⟩))

end Built

theorem keyed_ofMap (entries : Std.TreeMap Digest Bytes) :
    Keyed Digest.keyLength (entries.toList.map fun (key, value) => (key.nibbles, value)) where
  length_eq := by
    rintro _ member
    obtain ⟨_, -, rfl⟩ := List.mem_map.mp member
    exact Digest.length_nibbles _
  distinct := by
    refine List.pairwise_map.mpr (entries.distinct_keys_toList.imp ?_)
    intro left right distinct same
    exact distinct (Std.LawfulEqCmp.compare_eq_iff_eq.mpr (Digest.nibbles_injective same))

theorem ofMap_of_isEmpty {entries : Std.TreeMap Digest Bytes} (empty : entries.toList = []) :
    ofMap H entries = .empty H := by
  simp [ofMap, empty, ofSuffixes]

theorem built_ofMap (H : Hash) {entries : Std.TreeMap Digest Bytes}
    (nonempty : entries.toList ≠ []) :
    Built H [] (entries.toList.map fun (key, value) => (key.nibbles, value)) (ofMap H entries) :=
  built_ofSuffixes (keyed_ofMap entries) (by simpa using nonempty) (Nat.le_refl _)

end Trie

end TrieSync
