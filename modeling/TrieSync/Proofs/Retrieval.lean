import TrieSync.Proofs.ExactCheck
import TrieSync.Proofs.Lookup

namespace TrieSync

open Relation
open Scheduler

namespace Store

variable {H : Hash} {schema : Schema} {store : Store} {owner : Owner} {taken rest : Nibbles}
  {node : Node}

/-- A value that a node holds, and what is left of its key at that node. -/
structure Entry where
  holder : Occurrence
  suffix : Nibbles
  value : Bytes
deriving DecidableEq

/-- A node of the same trie that is met on the way down holds the value under the key. -/
structure Lists (H : Hash) (schema : Schema) (store : Store) (top : Occurrence) (key : Nibbles)
    (entry : Entry) : Prop where
  met : entry.holder ∈ store.reach H schema top
  owner_eq : entry.holder.path.owner = top.path.owner
  held : ∃ bytes node, store.node? entry.holder = some bytes ∧ Node.decode bytes = .ok node ∧
    (entry.suffix, entry.value) ∈ node.values
  key_eq : entry.holder.path.nibbles ++ entry.suffix = key

variable {top : Occurrence} {key : Nibbles} {entry : Entry}

theorem Lists.isPrefix (h : Lists H schema store top key entry) : top.path.nibbles <+: key := by
  have covers := (follows_branching H schema store).leadsTo_covers h.met.2
  obtain ⟨suffix, path_eq⟩ := Path.exists_join_of_covers covers h.owner_eq
  rw [← h.key_eq, path_eq, Path.nibbles_join, List.append_assoc]
  exact List.prefix_append _ _

theorem lists_iff {bytes : Bytes} {references : References} (digest_ne : top.digest ≠ emptyRoot H)
    (stored : store.node? top = some bytes)
    (decoded : schema.references H top.path bytes = .ok references)
    (node_eq : Node.decode bytes = .ok node) :
    Lists H schema store top key entry ↔
      (entry.holder = top ∧ (entry.suffix, entry.value) ∈ node.values ∧
        top.path.nibbles ++ entry.suffix = key) ∨
      ∃ suffix child, (suffix, child) ∈ node.children ∧
        Lists H schema store ⟨top.path.join suffix, child⟩ key entry := by
  obtain ⟨node', node_eq', tries, nodes_eq, subTries⟩ := Schema.references_cases decoded
  obtain rfl := Except.ok.inj (node_eq.symm.trans node_eq')
  constructor
  · rintro ⟨⟨-, leads⟩, owner_eq, held, key_eq⟩
    rcases ReflTransGen.cases_head leads with rfl | ⟨next, follows, leads⟩
    · obtain ⟨bytes', node', stored', node_eq'', member⟩ := held
      obtain rfl := Option.some.inj (stored.symm.trans stored')
      obtain rfl := Except.ok.inj (node_eq.symm.trans node_eq'')
      exact .inl ⟨rfl, member, key_eq⟩
    · obtain ⟨bytes', references', stored', decoded', member, next_ne⟩ := follows
      obtain rfl := Option.some.inj (stored.symm.trans stored')
      obtain rfl := Except.ok.inj (decoded.symm.trans decoded')
      rw [nodes_eq] at member
      rcases List.mem_append.mp member with child | trie
      · obtain ⟨⟨suffix, digest⟩, link, rfl⟩ := List.mem_map.mp child
        exact .inr ⟨suffix, digest, link, ⟨next_ne, leads⟩, owner_eq, held, key_eq⟩
      · -- No way leads back from a sub-trie, so the entry would belong to another trie.
        obtain ⟨top_root, owner, path_eq⟩ := subTries next trie
        have covers := (follows_branching H schema store).leadsTo_covers leads
        rw [path_eq] at covers
        exact absurd covers (Path.not_covers_of_root (owner_eq.trans top_root) owner)
  · rintro (⟨rfl, member, key_eq⟩ | ⟨suffix, child, link, lists⟩)
    · exact ⟨⟨digest_ne, .refl⟩, rfl, ⟨bytes, node, stored, node_eq, member⟩, key_eq⟩
    · obtain ⟨child_ne, leads⟩ := lists.met
      refine ⟨⟨digest_ne, .head ⟨bytes, references, stored, decoded, ?_, child_ne⟩ leads⟩,
        lists.owner_eq, lists.held, lists.key_eq⟩
      rw [nodes_eq]
      exact List.mem_append_left _ (List.mem_map.mpr ⟨_, link, rfl⟩)

/-- What is retrieved from a node on is the value of the only entry that the node lists under the
rest of a key, if there is one. -/
def Retrieves (H : Hash) (schema : Schema) (store : Store) (top : Occurrence) (rest : Nibbles)
    (result : Except ReadError (Option Bytes)) : Prop :=
  ∃ found : Option Entry, result = .ok (found.map Entry.value) ∧
    ∀ entry, found = some entry ↔ Lists H schema store top (top.path.nibbles ++ rest) entry

theorem retrieves_follow {digest : Digest} {bytes : Bytes} {references : References}
    (digest_ne : digest ≠ emptyRoot H)
    (stored : store.node? ⟨⟨owner, taken⟩, digest⟩ = some bytes)
    (decoded : schema.references H ⟨owner, taken⟩ bytes = .ok references)
    (node_eq : Node.decode bytes = .ok node)
    (below : ∀ {suffix child inner}, (suffix, child) ∈ node.children → rest = suffix ++ inner →
      Retrieves H schema store ⟨⟨owner, taken ++ suffix⟩, child⟩ inner
        (store.descend H owner inner (taken ++ suffix) [] child).result) :
    Retrieves H schema store ⟨⟨owner, taken⟩, digest⟩ rest
      (store.follow H owner rest taken node).result := by
  have entry_iff {entry : Entry} :
      Lists H schema store ⟨⟨owner, taken⟩, digest⟩ (taken ++ rest) entry ↔ _ :=
    lists_iff digest_ne stored decoded node_eq
  have on_way {suffix : Nibbles} {child : Digest} {entry : Entry}
      (lists : Lists H schema store ⟨⟨owner, taken ++ suffix⟩, child⟩ (taken ++ rest) entry) :
      suffix <+: rest := (List.prefix_append_right_inj _).mp lists.isPrefix
  cases store.onward H owner rest taken node with
  | @value value follow_eq value_iff no_child =>
      refine ⟨some ⟨⟨⟨owner, taken⟩, digest⟩, rest, value⟩, by rw [follow_eq]; rfl, ?_⟩
      rintro ⟨holder, suffix, other⟩
      rw [entry_iff]
      constructor
      · rintro ⟨⟩
        exact .inl ⟨rfl, (value_iff value).mpr rfl, rfl⟩
      · rintro (⟨rfl, member, key_eq⟩ | ⟨suffix', child, link, lists⟩)
        · obtain rfl : suffix = rest := List.append_cancel_left key_eq
          obtain rfl := (value_iff other).mp member
          rfl
        · exact absurd (on_way lists) (no_child suffix' child link)
  | @child suffix inner child rest_eq follow_eq no_value link only =>
      obtain ⟨found, result_eq, found_iff⟩ := below link rest_eq
      refine ⟨found, by rw [follow_eq, result_eq], fun entry => (found_iff entry).trans ?_⟩
      rw [entry_iff, List.append_assoc, ← rest_eq]
      constructor
      · exact fun lists => .inr ⟨suffix, child, link, lists⟩
      · rintro (⟨-, member, key_eq⟩ | ⟨suffix', child', link', lists⟩)
        · rw [List.append_cancel_left key_eq] at member
          exact absurd member (no_value _)
        · obtain ⟨rfl, rfl⟩ := only suffix' child' link' (on_way lists)
          exact lists
  | nowhere follow_eq no_value no_child =>
      refine ⟨none, by rw [follow_eq]; rfl, fun entry => ⟨nofun, fun lists => ?_⟩⟩
      rcases entry_iff.mp lists with ⟨-, member, key_eq⟩ | ⟨suffix, child, link, lists⟩
      · rw [List.append_cancel_left key_eq] at member
        exact absurd member (no_value _)
      · exact absurd (on_way lists) (no_child suffix child link)

theorem retrieves_descend {digest : Digest}
    (whole : ∀ {lower}, digest ≠ emptyRoot H →
      ReflTransGen (store.Reads H schema) ⟨⟨owner, taken⟩, digest⟩ lower →
        Whole H schema store lower) :
    Retrieves H schema store ⟨⟨owner, taken⟩, digest⟩ rest
      (store.descend H owner rest taken [] digest).result := by
  induction rest, taken, digest using rest_induction with
  | at_node rest taken digest ih =>
      by_cases digest_eq : digest = emptyRoot H
      · refine ⟨none, ?_, fun entry => ⟨nofun, fun lists => absurd digest_eq lists.met.1⟩⟩
        rw [descend, if_pos digest_eq]
        rfl
      · obtain ⟨references, read, -⟩ := whole digest_eq .refl
        obtain ⟨bytes, stored, digest_eq', decoded⟩ := readReferences_eq_ok_iff.mp read
        obtain ⟨node, node_eq, tries, nodes_eq, -⟩ := Schema.references_cases decoded
        have node_read : store.readNode H ⟨⟨owner, taken⟩, digest⟩ = .ok bytes := by
          rw [readNode, stored]
          exact if_pos digest_eq'
        have wellFormed := (Node.decode_eq_ok_iff.mp node_eq).1
        rw [descend_eq_follow digest_eq node_read node_eq]
        refine retrieves_follow digest_eq stored decoded node_eq ?_
        intro suffix child inner link rest_eq
        refine ih wellFormed link rest_eq fun child_ne leads => ?_
        refine whole digest_eq (.head ⟨references, read, ?_, child_ne⟩ leads)
        rw [nodes_eq]
        exact List.mem_append_left _ (List.mem_map.mpr ⟨_, link, rfl⟩)

/-- A trie that passes a check holds at most one entry under a key, and that one is found. -/
theorem get_of_verifyAt {root : Digest} {count : Nat}
    (verified : store.verifyAt H schema ⟨⟨owner, []⟩, root⟩ = .ok count) (key : Digest) :
    ∃ found, store.get H owner root key = .ok found ∧
      (∀ value, found = some value ↔ ∃ entry,
        Lists H schema store ⟨⟨owner, []⟩, root⟩ key.nibbles entry ∧ entry.value = value) ∧
      ∀ entry other, Lists H schema store ⟨⟨owner, []⟩, root⟩ key.nibbles entry →
        Lists H schema store ⟨⟨owner, []⟩, root⟩ key.nibbles other → entry = other := by
  obtain ⟨found, get_eq, found_iff⟩ : Retrieves H schema store ⟨⟨owner, []⟩, root⟩ key.nibbles
      (store.get H owner root key) :=
    retrieves_descend fun digest_ne leads => whole_of_verifyWithin verified digest_ne leads
  refine ⟨found.map Entry.value, get_eq, fun value => ?_, fun entry other lists lists' => ?_⟩
  · rw [Option.map_eq_some_iff]
    exact exists_congr fun entry => and_congr_left' (found_iff entry)
  · exact Option.some.inj (((found_iff entry).mpr lists).symm.trans ((found_iff other).mpr lists'))

end Store

namespace StrayValue

open Session.SharedLeaf (key)

/-- A leaf under a key that is too long. -/
def beyond : Node :=
  .leaf [2] [8]

/-- A value in a branch, and below it what no lookup gets to. -/
def last : Node :=
  .branch (Children.absent.set 5 (some (beyond.digest quickHash))) (some [7])

def rest : Node :=
  .extension ((key 0x11).nibbles.drop 1) (last.digest quickHash)

/-- The first of two extensions, one below the other. -/
def first : Node :=
  .extension ((key 0x11).nibbles.take 1) (rest.digest quickHash)

def held : Store :=
  (Store.empty .byDigest).putAll
    ([beyond, last, rest, first].map fun node => .node ⟨.root, node.digest quickHash⟩ node.encode)

def top : Occurrence where
  path := .subTrie (key 0xa0)
  digest := first.digest quickHash

/-- The value in the branch is found, and nothing is found under another key. -/
theorem get_of_verifyAt_held :
    held.verifyAt quickHash .accounts top = .ok 4 ∧
      (∃ entry, Store.Lists quickHash .accounts held top (key 0x11).nibbles entry ∧
        entry.value = [7]) ∧
      ¬ ∃ entry, Store.Lists quickHash .accounts held top (key 0x12).nibbles entry := by
  obtain ⟨verified, found_eq, absent_eq⟩ :
      held.verifyAt quickHash .accounts top = .ok 4 ∧
      held.get quickHash top.path.owner top.digest (key 0x11) = .ok (some [7]) ∧
      held.get quickHash top.path.owner top.digest (key 0x12) = .ok none := by
    decide +kernel
  obtain ⟨found, get_eq, found_iff, -⟩ := Store.get_of_verifyAt verified (key 0x11)
  obtain ⟨absent, get_eq', absent_iff, -⟩ := Store.get_of_verifyAt verified (key 0x12)
  obtain rfl := Except.ok.inj (get_eq.symm.trans found_eq)
  obtain rfl := Except.ok.inj (get_eq'.symm.trans absent_eq)
  refine ⟨verified, (found_iff [7]).mp rfl, ?_⟩
  rintro ⟨entry, lists⟩
  cases (absent_iff entry.value).mpr ⟨entry, lists, rfl⟩

end StrayValue

end TrieSync
