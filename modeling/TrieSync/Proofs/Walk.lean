import Mathlib.Data.List.FinRange
import Mathlib.Data.List.Nodup
import Mathlib.Data.List.Pairwise
import Mathlib.Logic.Relation
import Mathlib.Tactic.ByContra
import TrieSync.Proofs.CanonicalCoding
import TrieSync.Proofs.Decoding

/-!
Places as ways from the root of the root trie. What a node refers to lies below it, and no two of
its references lie below one another.
-/

namespace TrieSync

namespace Path

/-- The way from the root of the root trie, where `none` is the turn into a sub-trie. -/
def walk : Path → List (Option Nibble)
  | ⟨.root, nibbles⟩ => nibbles.map some
  | ⟨.account key, nibbles⟩ => key.nibbles.map some ++ none :: nibbles.map some

/-- The way to a place leads through another one. -/
def Covers (upper lower : Path) : Prop :=
  upper.walk <+: lower.walk

theorem walk_join (path : Path) (suffix : Nibbles) :
    (path.join suffix).walk = path.walk ++ suffix.map some := by
  obtain ⟨_ | key, nibbles⟩ := path <;> simp [walk, join]

theorem walk_subTrie (key : Digest) : (subTrie key).walk = key.nibbles.map some ++ [none] := by
  simp [walk, subTrie]

theorem walk_injective {left right : Path} (h : left.walk = right.walk) : left = right := by
  have map_some_injective {xs ys : Nibbles} (same : xs.map some = ys.map some) : xs = ys :=
    List.map_injective_iff.mpr (Option.some_injective _) same
  obtain ⟨_ | leftKey, left⟩ := left <;> obtain ⟨_ | rightKey, right⟩ := right
  · rw [map_some_injective h]
  · have ways_eq : left.map some = rightKey.nibbles.map some ++ none :: right.map some := h
    have member : none ∈ left.map some := by simp [ways_eq]
    simp at member
  · have ways_eq : leftKey.nibbles.map some ++ none :: left.map some = right.map some := h
    have member : none ∈ right.map some := by simp [← ways_eq]
    simp at member
  · have lengths : (leftKey.nibbles.map some).length = (rightKey.nibbles.map some).length := by simp
    obtain ⟨keys_eq, rest_eq⟩ := List.append_inj h lengths
    rw [Digest.nibbles_injective (map_some_injective keys_eq),
      map_some_injective (List.cons.inj rest_eq).2]

theorem Covers.refl (path : Path) : path.Covers path :=
  List.prefix_refl _

theorem Covers.trans {upper between lower : Path} (h : upper.Covers between)
    (h' : between.Covers lower) : upper.Covers lower :=
  List.IsPrefix.trans h h'

theorem Covers.comparable {left right lower : Path} (h : left.Covers lower)
    (h' : right.Covers lower) : left.Covers right ∨ right.Covers left :=
  List.prefix_or_prefix_of_prefix h h'

theorem covers_join (path : Path) (suffix : Nibbles) : path.Covers (path.join suffix) :=
  ⟨suffix.map some, (walk_join path suffix).symm⟩

theorem exists_join_of_covers {upper lower : Path} (covers : upper.Covers lower)
    (owner_eq : lower.owner = upper.owner) : ∃ suffix, lower = upper.join suffix := by
  obtain ⟨owner, upper⟩ := upper
  obtain ⟨_, lower⟩ := lower
  obtain rfl := owner_eq
  have nibbles_covered : upper.map some <+: lower.map some := by
    rename_i owner
    cases owner with
    | root => exact covers
    | account key =>
        exact (List.cons_prefix_cons.mp ((List.prefix_append_right_inj _).mp covers)).2
  obtain ⟨suffix, rfl⟩ :=
    (List.prefix_map_iff_of_injective (Option.some_injective _)).mp nibbles_covered
  exact ⟨suffix, rfl⟩

theorem not_covers_of_root {lower : Path} (owner_eq : lower.owner = .root) (key : Digest) :
    ¬ (subTrie key).Covers lower := by
  obtain ⟨_, nibbles⟩ := lower
  obtain rfl := owner_eq
  intro covers
  have turns : none ∈ nibbles.map some := covers.subset (by simp [walk_subTrie])
  simp at turns

end Path

/-- Neither of two nodes lies below the other. -/
def Occurrence.Apart (left right : Occurrence) : Prop :=
  ¬ left.path.Covers right.path ∧ ¬ right.path.Covers left.path

instance : Std.Symm Occurrence.Apart where
  symm _ _ apart := ⟨apart.2, apart.1⟩

/-- Nodes lie strictly below a place, and not below one another. -/
structure Below (path : Path) (nodes : List Occurrence) : Prop where
  covers : ∀ node ∈ nodes, path.Covers node.path
  not_covers : ∀ node ∈ nodes, ¬ node.path.Covers path
  apart : nodes.Pairwise Occurrence.Apart

theorem Below.filter {path : Path} {nodes : List Occurrence} (h : Below path nodes)
    (keep : Occurrence → Bool) : Below path (nodes.filter keep) where
  covers node member := h.covers node (List.mem_of_mem_filter member)
  not_covers node member := h.not_covers node (List.mem_of_mem_filter member)
  apart := h.apart.filter _

private theorem below_nil (path : Path) : Below path [] :=
  ⟨by simp, by simp, .nil⟩

private theorem below_singleton {path : Path} {node : Occurrence} {way : List (Option Nibble)}
    (walk_eq : node.path.walk = path.walk ++ way) (nonempty : way ≠ []) : Below path [node] where
  covers other member := by
    obtain rfl := List.mem_singleton.mp member
    exact ⟨way, walk_eq.symm⟩
  not_covers other member covers := by
    obtain rfl := List.mem_singleton.mp member
    have length_le := covers.length_le
    have positive := List.length_pos_iff.mpr nonempty
    rw [walk_eq, List.length_append] at length_le
    omega
  apart := List.pairwise_singleton _ _

private theorem below_of_steps {path : Path} {nodes : List Occurrence}
    (steps : List (Option Nibble))
    (walks_eq : nodes.map (fun node => node.path.walk) = steps.map fun step => path.walk ++ [step])
    (nodup : steps.Nodup) : Below path nodes := by
  have step_of_mem {node : Occurrence} (member : node ∈ nodes) :
      ∃ step, node.path.walk = path.walk ++ [step] := by
    have walk_mem := List.mem_map_of_mem (f := fun node => node.path.walk) member
    rw [walks_eq] at walk_mem
    obtain ⟨step, -, step_eq⟩ := List.mem_map.mp walk_mem
    exact ⟨step, step_eq.symm⟩
  refine ⟨?_, ?_, ?_⟩
  · intro node member
    obtain ⟨step, walk_eq⟩ := step_of_mem member
    exact ⟨[step], walk_eq.symm⟩
  · intro node member covers
    obtain ⟨step, walk_eq⟩ := step_of_mem member
    have length_le := covers.length_le
    simp only [walk_eq, List.length_append, List.length_singleton] at length_le
    omega
  · have distinct : (nodes.map fun node => node.path.walk).Nodup := by
      rw [walks_eq]
      exact nodup.map fun left right same => by simpa using same
    refine (List.pairwise_map.mp distinct).imp_of_mem ?_
    intro left right left_mem right_mem walk_ne
    obtain ⟨leftStep, left_eq⟩ := step_of_mem left_mem
    obtain ⟨rightStep, right_eq⟩ := step_of_mem right_mem
    have length_eq : left.path.walk.length = right.path.walk.length := by simp [left_eq, right_eq]
    exact ⟨fun covers => walk_ne (covers.eq_of_length length_eq),
      fun covers => walk_ne (covers.eq_of_length length_eq.symm).symm⟩

theorem Node.key_ne_nil_of_decode {bytes : Bytes} {key : Nibbles} {child : Digest}
    (h : Node.decode bytes = .ok (.extension key child)) : key ≠ [] :=
  (Node.decode_eq_ok_iff.mp h).1.1

theorem Children.nodup_present (children : Children) : (children.present.map Prod.fst).Nodup := by
  have present_eq : children.present.map Prod.fst =
      (List.finRange 16).filter fun nibble => (children.get nibble).isSome := by
    unfold present
    induction List.finRange 16 with
    | nil => rfl
    | cons nibble nibbles ih =>
        rw [List.filterMap_cons, List.filter_cons]
        cases children.get nibble with
        | none => exact ih
        | some child => exact congrArg (nibble :: ·) ih
  rw [present_eq]
  exact (List.nodup_finRange 16).filter _

namespace Node

theorem nodup_suffixes (node : Node) : (node.children.map Prod.fst).Nodup := by
  cases node with
  | empty | leaf => exact .nil
  | extension => exact List.nodup_singleton _
  | branch children value =>
      rw [Node.children, List.map_map]
      have nodup := children.nodup_present.map fun _ _ => List.singleton_inj.mp
      rwa [List.map_map] at nodup

theorem WellFormed.suffix_ne_nil {node : Node} (h : node.WellFormed) {suffix : Nibbles}
    {child : Digest} (member : (suffix, child) ∈ node.children) : suffix ≠ [] := by
  cases node with
  | empty | leaf => cases member
  | extension key child =>
      obtain ⟨rfl, -⟩ := Prod.mk.inj (List.mem_singleton.mp member)
      exact h.1
  | branch children value =>
      obtain ⟨_, -, same⟩ := List.mem_map.mp member
      obtain ⟨rfl, -⟩ := Prod.mk.inj same
      exact List.cons_ne_nil _ _

end Node

namespace References

variable {H : Hash}

private theorem nodes_ofValues {place suffix : Nibbles} {value : Option Bytes}
    {references : References}
    (h : ofValues H place (value.toList.map fun value => (suffix, value)) = .ok references) :
    references.nodes = [] ∨ ∃ node : Occurrence, references.nodes = [node] ∧
      node.path.walk = place.map some ++ (suffix.map some ++ [none]) := by
  cases value with
  | none =>
      obtain rfl := Except.ok.inj h
      exact .inl rfl
  | some value =>
      obtain ⟨first, rest, first_eq, rest_eq, rfl⟩ := ofValues_cons_eq_ok_iff.mp h
      obtain rfl := Except.ok.inj rest_eq
      obtain ⟨owner, account, key_eq, -, rfl⟩ := ofValue_eq_ok_iff.mp first_eq
      rw [nodes_append, List.append_nil]
      refine (nodes_ofAccount owner account).imp_right fun node_eq => ⟨_, node_eq, ?_⟩
      simp [Path.walk_subTrie, key_eq]

end References

namespace Schema

variable {H : Hash} {schema : Schema} {path : Path}

private theorem nodes_nodeReferences {node : Node} {references : References}
    (h : schema.nodeReferences H path node = .ok references) :
    ∃ values : List Occurrence,
      references.nodes = (References.ofChildren path node).nodes ++ values ∧
      (values = [] ∨ ∃ found, References.ofValues H path.nibbles node.values = .ok found ∧
        values = found.nodes ∧ path.owner = .root) := by
  rcases nodeReferences_eq_ok_iff.mp h with ⟨-, rfl⟩ | ⟨⟨-, owner_eq⟩, found, found_eq, rfl⟩
  · exact ⟨[], by simp, .inl rfl⟩
  · exact ⟨found.nodes, rfl, .inr ⟨found, found_eq, rfl, owner_eq⟩⟩

private theorem walk_of_root (owner_eq : path.owner = .root) : path.walk = path.nibbles.map some := by
  obtain ⟨_, nibbles⟩ := path
  cases owner_eq
  rfl

theorem references_below {bytes : Bytes} {references : References}
    (h : schema.references H path bytes = .ok references) : Below path references.nodes := by
  obtain ⟨node, decoded, h⟩ := references_eq_ok_iff.mp h
  obtain ⟨values, nodes_eq, values_eq⟩ := nodes_nodeReferences h
  rw [nodes_eq]
  have values_cases (suffix : Nibbles) (value : Option Bytes)
      (single : node.values = value.toList.map fun value => (suffix, value)) :
      values = [] ∨ ∃ found : Occurrence, values = [found] ∧
        found.path.walk = path.walk ++ (suffix.map some ++ [none]) := by
    rcases values_eq with rfl | ⟨found, found_eq, rfl, owner_eq⟩
    · exact .inl rfl
    · rw [single] at found_eq
      rw [walk_of_root owner_eq]
      exact References.nodes_ofValues found_eq
  cases node with
  | empty =>
      rcases values_cases [] none rfl with rfl | ⟨found, rfl, walk_eq⟩
      · exact below_nil path
      · exact below_singleton walk_eq (by simp)
  | leaf key value =>
      rcases values_cases key (some value) rfl with rfl | ⟨found, rfl, walk_eq⟩
      · exact below_nil path
      · exact below_singleton walk_eq (by simp)
  | extension key child =>
      have no_values : values = [] := by
        rcases values_eq with rfl | ⟨found, found_eq, rfl, -⟩
        · rfl
        · obtain rfl := Except.ok.inj found_eq
          rfl
      subst no_values
      refine below_singleton (Path.walk_join path key) ?_
      simpa using Node.key_ne_nil_of_decode decoded
  | branch children value =>
      have children_eq : (References.ofChildren path (.branch children value)).nodes.map
          (fun node => node.path.walk) =
            (children.present.map fun entry => some entry.1).map fun step =>
              path.walk ++ [step] := by
        simp [References.ofChildren, Node.children, Path.walk_join]
      have distinct : (children.present.map fun entry => some entry.1).Nodup := by
        have nodup := children.nodup_present.map (Option.some_injective Nibble)
        rwa [List.map_map] at nodup
      rcases values_cases [] value rfl with rfl | ⟨found, rfl, walk_eq⟩
      · rw [List.append_nil]
        exact below_of_steps _ children_eq distinct
      · refine below_of_steps ((children.present.map fun entry => some entry.1) ++ [none]) ?_ ?_
        · rw [List.map_append, List.map_append, children_eq]
          simp [walk_eq]
        · refine distinct.append (List.nodup_singleton none) ?_
          simp

end Schema

/-- A relation leads from every node to nodes strictly below it, and not below one another. -/
structure Branching (R : Occurrence → Occurrence → Prop) : Prop where
  covers : ∀ {upper lower}, R upper lower → upper.path.Covers lower.path
  not_covers : ∀ {upper lower}, R upper lower → ¬ lower.path.Covers upper.path
  apart : ∀ {upper left right}, R upper left → R upper right → left ≠ right → left.Apart right

namespace Branching

open Relation

variable {R : Occurrence → Occurrence → Prop} {upper lower left right : Occurrence}

theorem of_references (H : Hash) (schema : Schema) (found : Occurrence → References → Prop)
    (decoded : ∀ {upper references}, found upper references →
      ∃ bytes, schema.references H upper.path bytes = .ok references)
    (single : ∀ {upper left right}, found upper left → found upper right → left = right)
    (leads : ∀ {upper lower}, R upper lower →
      ∃ references, found upper references ∧ lower ∈ references.nodes) : Branching R := by
  have below {upper lower : Occurrence} (leads_on : R upper lower) :
      ∃ references, found upper references ∧ Below upper.path references.nodes ∧
        lower ∈ references.nodes := by
    obtain ⟨references, references_found, member⟩ := leads leads_on
    obtain ⟨bytes, decoded⟩ := decoded references_found
    exact ⟨references, references_found, Schema.references_below decoded, member⟩
  refine ⟨?_, ?_, ?_⟩
  · intro upper lower leads_on
    obtain ⟨references, -, below, member⟩ := below leads_on
    exact below.covers lower member
  · intro upper lower leads_on
    obtain ⟨references, -, below, member⟩ := below leads_on
    exact below.not_covers lower member
  · intro upper left right left_leads right_leads distinct
    obtain ⟨references, references_found, below_left, left_mem⟩ := below left_leads
    obtain ⟨_, other_found, -, right_mem⟩ := below right_leads
    obtain rfl := single references_found other_found
    exact below_left.apart.forall left_mem right_mem distinct

theorem leadsTo_covers (h : Branching R) (leads : ReflTransGen R upper lower) :
    upper.path.Covers lower.path := by
  induction leads with
  | refl => exact .refl _
  | tail _ leads ih => exact ih.trans (h.covers leads)

/-- Nothing is below two nodes that are not below one another. -/
theorem not_leadsTo_of_apart (h : Branching R) (apart : left.Apart right)
    (leads : ReflTransGen R left lower) : ¬ ReflTransGen R right lower := by
  intro leads'
  rcases (h.leadsTo_covers leads).comparable (h.leadsTo_covers leads') with above | under
  · exact apart.1 above
  · exact apart.2 under

theorem not_covers_of_transGen (h : Branching R) (leads : TransGen R upper lower) :
    ¬ lower.path.Covers upper.path := by
  obtain ⟨next, leads, leads_on⟩ := TransGen.head'_iff.mp leads
  exact fun covers => h.not_covers leads ((h.leadsTo_covers leads_on).trans covers)

theorem eq_of_path_eq (h : Branching R) (leads : ReflTransGen R upper left)
    (leads' : ReflTransGen R upper right) (path_eq : left.path = right.path) : left = right := by
  induction leads using ReflTransGen.head_induction_on with
  | refl =>
      rcases ReflTransGen.cases_head leads' with same | ⟨next, leads, leads_on⟩
      · exact same
      · exact absurd (path_eq ▸ Path.Covers.refl _) (h.not_covers_of_transGen (.head' leads leads_on))
  | @head upper next leads leads_on ih =>
      rcases ReflTransGen.cases_head leads' with rfl | ⟨other, leads', leads_on'⟩
      · exact absurd (path_eq ▸ Path.Covers.refl _) (h.not_covers_of_transGen (.head' leads leads_on))
      · have same : next = other := by
          by_contra distinct
          have apart := h.apart leads leads' distinct
          rcases (h.leadsTo_covers leads_on).comparable
            (path_eq ▸ h.leadsTo_covers leads_on') with above | under
          · exact apart.1 above
          · exact apart.2 under
        exact ih (same ▸ leads_on')

end Branching

/-- Nodes that are missing, and nodes that are at their places. Each is at a place of its own, and
none of them is below a missing one. -/
structure Layout (missing placed : List Occurrence) : Prop where
  nodup : ((missing ++ placed).map Occurrence.path).Nodup
  apart : ∀ {upper lower}, upper ∈ missing → lower ∈ missing ++ placed →
    upper.path.Covers lower.path → lower = upper

namespace Layout

variable {missing placed missing' placed' nodes : List Occurrence} {node : Occurrence}

theorem perm (h : Layout missing placed) (missing_perm : missing.Perm missing')
    (placed_perm : placed.Perm placed') : Layout missing' placed' where
  nodup := ((missing_perm.append placed_perm).map _).nodup_iff.mp h.nodup
  apart upper_mem lower_mem covers :=
    h.apart (missing_perm.mem_iff.mpr upper_mem)
      ((missing_perm.append placed_perm).mem_iff.mpr lower_mem) covers

theorem settle (h : Layout (node :: missing) placed) : Layout missing (node :: placed) where
  nodup := (List.perm_middle.map _).nodup_iff.mpr h.nodup
  apart upper_mem lower_mem covers :=
    h.apart (List.mem_cons_of_mem _ upper_mem) (List.perm_middle.mem_iff.mp lower_mem) covers

theorem eq_of_path_eq (h : Layout missing placed) {left right : Occurrence}
    (left_mem : left ∈ missing ++ placed) (right_mem : right ∈ missing ++ placed)
    (path_eq : left.path = right.path) : left = right :=
  List.inj_on_of_nodup_map h.nodup left_mem right_mem path_eq

theorem expand (h : Layout (node :: missing) placed) (below : Below node.path nodes) :
    Layout (nodes ++ missing) (node :: placed) := by
  have node_mem : node ∈ node :: missing := List.mem_cons_self
  have not_missing : node ∉ missing := fun member => by
    have distinct := (List.nodup_cons.mp (List.map_append ▸ h.nodup : (_ :: _).Nodup)).1
    exact distinct (List.mem_append_left _ (List.mem_map_of_mem member))
  -- What is known and lies below one of the new nodes also lies below the one that is put.
  have known_apart {lower new : Occurrence} (new_mem : new ∈ nodes)
      (lower_mem : lower ∈ node :: missing ++ placed) (covers : new.path.Covers lower.path) :
      False := by
    obtain rfl := h.apart node_mem lower_mem ((below.covers new new_mem).trans covers)
    exact below.not_covers new new_mem covers
  have perm : (nodes ++ missing ++ node :: placed).Perm (nodes ++ (node :: missing ++ placed)) := by
    rw [List.append_assoc]
    exact List.perm_middle.append_left _
  refine ⟨(perm.map _).nodup_iff.mpr ?_, ?_⟩
  · rw [List.map_append]
    refine List.Nodup.append ?_ h.nodup ?_
    · refine List.pairwise_map.mpr (below.apart.imp ?_)
      intro left right apart same
      exact apart.1 (same ▸ Path.Covers.refl _)
    · intro path path_new path_known
      obtain ⟨new, new_mem, rfl⟩ := List.mem_map.mp path_new
      obtain ⟨known, known_mem, path_eq⟩ := List.mem_map.mp path_known
      refine known_apart new_mem known_mem ?_
      rw [path_eq]
      exact Path.Covers.refl _
  · intro upper lower upper_mem lower_mem covers
    rcases List.mem_append.mp (perm.mem_iff.mp lower_mem) with lower_mem | lower_mem
    · rcases List.mem_append.mp upper_mem with upper_mem | upper_mem
      · by_contra distinct
        exact (below.apart.forall lower_mem upper_mem distinct).2 covers
      · refine absurd ?_ not_missing
        rcases covers.comparable (below.covers lower lower_mem) with above | under
        · exact h.apart (List.mem_cons_of_mem _ upper_mem) (by simp) above ▸ upper_mem
        · have upper_known : upper ∈ node :: missing ++ placed :=
            List.mem_append_left _ (List.mem_cons_of_mem _ upper_mem)
          exact h.apart node_mem upper_known under ▸ upper_mem
    · rcases List.mem_append.mp upper_mem with upper_mem | upper_mem
      · exact (known_apart upper_mem lower_mem covers).elim
      · exact h.apart (List.mem_cons_of_mem _ upper_mem) lower_mem covers

end Layout

end TrieSync
