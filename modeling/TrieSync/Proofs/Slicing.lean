import Mathlib.Data.List.FinRange
import TrieSync.Proofs.Shape
import TrieSync.Trie.Build

namespace TrieSync

namespace Children

theorem get_set (children : Children) (nibble other : Nibble) (child : Option Digest) :
    (children.set nibble child).get other =
      if nibble = other then child else children.get other := by
  show (children.setIfInBounds nibble child)[other.val] = _
  rw [Vector.getElem_setIfInBounds]
  exact if_congr Fin.val_inj rfl rfl

theorem get_absent (nibble : Nibble) : Vector.get absent nibble = none :=
  Vector.getElem_replicate nibble.isLt

theorem ext_get {left right : Children} (same : ∀ nibble, left.get nibble = right.get nibble) :
    left = right :=
  Vector.ext fun index bound => same ⟨index, bound⟩

end Children

namespace Trie

variable {H : Hash} {place : Nibbles} {entries : List (Nibbles × Bytes)} {trie : Trie}

/-- Entries with more nibbles in front of their keys. -/
def behind (front : Nibbles) (entries : List (Nibbles × Bytes)) : List (Nibbles × Bytes) :=
  entries.map fun (key, value) => (front ++ key, value)

theorem behind_nil (entries : List (Nibbles × Bytes)) : behind [] entries = entries := by
  simp [behind]

theorem behind_behind (front middle : Nibbles) (entries : List (Nibbles × Bytes)) :
    behind front (behind middle entries) = behind (front ++ middle) entries := by
  simp [behind]

section order

/-- Entries are in the order of their keys. -/
def Sorted (entries : List (Nibbles × Bytes)) : Prop :=
  entries.Pairwise fun left right => compare left.1 right.1 = .lt

private theorem compare_append_append (front left right : Nibbles) :
    compare (front ++ left) (front ++ right) = compare left right := by
  induction front with
  | nil => rfl
  | cons nibble front ih =>
      rw [List.cons_append, List.cons_append, List.compare_cons_cons, Std.ReflOrd.compare_self, ih]
      rfl

theorem sorted_behind_iff (front : Nibbles) : Sorted (behind front entries) ↔ Sorted entries := by
  simp only [Sorted, behind, List.pairwise_map, compare_append_append]

theorem Sorted.under (h : Sorted entries) (nibble : Nibble) :
    Sorted (Trie.under nibble entries) := by
  refine h.filterMap _ ?_
  rintro ⟨_ | ⟨first, key⟩, value⟩ ⟨_ | ⟨first', key'⟩, value'⟩ less entry found entry' found'
  all_goals
    simp only [Option.ite_none_right_eq_some, Option.some.injEq, reduceCtorEq] at found found'
  obtain ⟨rfl, rfl⟩ := found
  obtain ⟨rfl, rfl⟩ := found'
  rwa [List.compare_cons_cons, Std.ReflOrd.compare_self] at less

private theorem isPrefix_of_between {front lower key upper : Nibbles} (of_lower : front <+: lower)
    (of_upper : front <+: upper) (lower_le : (compare lower key).isLE)
    (le_upper : (compare key upper).isLE) : front <+: key := by
  obtain ⟨lower, rfl⟩ := of_lower
  obtain ⟨upper, rfl⟩ := of_upper
  induction front generalizing key with
  | nil => exact List.nil_prefix
  | cons nibble front ih =>
      cases key with
      | nil => cases lower_le
      | cons next key =>
          rw [List.cons_append, List.compare_cons_cons] at lower_le le_upper
          rw [Ordering.isLE_then_iff_or] at lower_le le_upper
          rcases lower_le with less | ⟨same, lower_le⟩
          · have greater := Std.OrientedCmp.gt_iff_lt.mpr less
            simp [greater] at le_upper
          · obtain rfl := Std.LawfulEqOrd.compare_eq_iff_eq.mp same
            have le_upper : (compare key (front ++ upper)).isLE := by simpa using le_upper
            exact (List.prefix_cons_inj nibble).mpr (ih lower_le le_upper)

/-- In sorted entries the first and the last key tell what all keys share. -/
theorem Sorted.sharedPrefix_eq {first last : Nibbles × Bytes} (h : Sorted entries)
    (head_eq : entries.head? = some first) (getLast_eq : entries.getLast? = some last) :
    sharedPrefix entries = Nibbles.commonPrefix first.1 last.1 := by
  have of_first := Nibbles.commonPrefix_isPrefix_left first.1 last.1
  have of_last := Nibbles.commonPrefix_isPrefix_left last.1 first.1
  rw [Nibbles.commonPrefix_comm] at of_last
  have begins : ∀ entry ∈ entries, Nibbles.commonPrefix first.1 last.1 <+: entry.1 := by
    intro entry member
    refine isPrefix_of_between of_first of_last ?_ ?_
    · obtain ⟨rest, rfl⟩ := List.head?_eq_some_iff.mp head_eq
      rcases List.mem_cons.mp member with rfl | member
      · rw [Std.ReflOrd.compare_self]
        rfl
      · rw [(List.pairwise_cons.mp h).1 entry member]
        rfl
    · obtain ⟨front, rfl⟩ := List.getLast?_eq_some_iff.mp getLast_eq
      rcases List.mem_append.mp member with member | member
      · rw [(List.pairwise_append.mp h).2.2 entry member last List.mem_cons_self]
        rfl
      · obtain rfl := List.mem_singleton.mp member
        rw [Std.ReflOrd.compare_self]
        rfl
  have first_mem := List.mem_of_head? head_eq
  have last_mem := List.mem_of_getLast? getLast_eq
  have longer := isPrefix_sharedPrefix (List.ne_nil_of_mem first_mem) begins
  have shorter :=
    isPrefix_commonPrefix (sharedPrefix_isPrefix first_mem) (sharedPrefix_isPrefix last_mem)
  exact shorter.eq_of_length_le longer.length_le

end order

/-- A trie, if all its nodes have an encoding. -/
def checked (trie : Trie) : Option Trie :=
  if ∀ placed ∈ trie.nodes, placed.node.Encodable then some trie else none

theorem checked_top (place : Nibbles) (node : Node) (below : List PlacedNode) :
    checked (top H place node below) =
      if ∀ placed ∈ below, placed.node.Encodable then top? H place node below else none := by
  simp only [checked, top, top?, List.forall_mem_append, List.forall_mem_singleton, ite_and]

section runs

/-- The nibbles that keys begin with. -/
def heads (entries : List (Nibbles × Bytes)) : List Nibble :=
  (List.finRange 16).filter fun nibble => under nibble entries ≠ []

theorem parts_eq_map_heads (trieOf : Nibble → List (Nibbles × Bytes) → Trie) :
    parts trieOf entries = (heads entries).map fun nibble =>
      ⟨[nibble], under nibble entries, trieOf nibble (under nibble entries)⟩ := by
  unfold parts heads
  induction List.finRange 16 with
  | nil => rfl
  | cons nibble nibbles ih =>
      rw [List.filterMap_cons, List.filter_cons, ih]
      by_cases part_eq : under nibble entries = []
      · simp [part_eq]
      · simp [part_eq]

theorem Sorted.eq_flatMap_parts (trieOf : Nibble → List (Nibbles × Bytes) → Trie)
    (h : Sorted entries) (keys_ne : ∀ entry ∈ entries, entry.1 ≠ []) :
    entries = (parts trieOf entries).flatMap Part.outer := by
  refine (perm_flatMap_parts trieOf keys_ne).eq_of_pairwise ?_ h ?_
  · intro left right _ _ less greater
    rw [Std.OrientedCmp.gt_iff_lt.mpr less] at greater
    cases greater
  · rw [List.pairwise_flatMap]
    constructor
    · intro part member
      obtain ⟨nibble, -, rfl⟩ := mem_parts_iff.mp member
      exact (sorted_behind_iff [nibble]).mpr (h.under nibble)
    · rw [parts_eq_map_heads, List.pairwise_map]
      refine ((List.pairwise_lt_finRange 16).filter _).imp ?_
      intro lower upper less left left_mem right right_mem
      obtain ⟨_, -, rfl⟩ := List.mem_map.mp left_mem
      obtain ⟨_, -, rfl⟩ := List.mem_map.mp right_mem
      simp only [List.cons_append, List.compare_cons_cons]
      rw [show compare lower upper = .lt from Nat.compare_eq_lt.mpr less]
      rfl

theorem run?_append {depth : Nat} {nibble : Nibble} {run rest : List (Nibbles × Bytes)}
    (run_heads : ∀ entry ∈ run, entry.1[depth]? = some nibble)
    (rest_head : ∀ entry ∈ rest.head?, ∃ other ≠ nibble, entry.1[depth]? = some other) :
    run? depth nibble (run ++ rest) = some (run, rest) := by
  induction run with
  | nil =>
      cases rest with
      | nil => rfl
      | cons entry rest =>
          obtain ⟨other, other_ne, found⟩ := rest_head entry rfl
          obtain ⟨key, value⟩ := entry
          simp [run?, found, other_ne]
  | cons entry run ih =>
      obtain ⟨key, value⟩ := entry
      obtain ⟨found, run_heads⟩ := List.forall_mem_cons.mp run_heads
      rw [List.cons_append, run?, ih run_heads]
      simp [found]

theorem getElem?_of_mem_behind {nibble : Nibble} {entry : Nibbles × Bytes}
    (member : entry ∈ behind (place ++ [nibble]) entries) :
    entry.1[place.length]? = some nibble := by
  obtain ⟨_, -, rfl⟩ := List.mem_map.mp member
  simp

theorem run?_behind_append {nibble : Nibble} {nibbles : List Nibble} (absent : nibble ∉ nibbles)
    (place : Nibbles) (entriesOf : Nibble → List (Nibbles × Bytes)) :
    run? place.length nibble (behind (place ++ [nibble]) (entriesOf nibble) ++
        nibbles.flatMap fun other => behind (place ++ [other]) (entriesOf other)) =
      some (behind (place ++ [nibble]) (entriesOf nibble),
        nibbles.flatMap fun other => behind (place ++ [other]) (entriesOf other)) := by
  refine run?_append (fun entry member => getElem?_of_mem_behind member) ?_
  intro entry member
  obtain ⟨other, other_mem, entry_mem⟩ := List.mem_flatMap.mp (List.mem_of_head? member)
  exact ⟨other, fun same => absent (same ▸ other_mem), getElem?_of_mem_behind entry_mem⟩

theorem runs?_eq {build : List (Nibbles × Bytes) → Nibbles → Option Trie} {nibbles : List Nibble}
    {entriesOf : Nibble → List (Nibbles × Bytes)} {trieOf : Nibble → Trie} (nodup : nibbles.Nodup)
    (entries_ne : ∀ nibble ∈ nibbles, entriesOf nibble ≠ [])
    (built : ∀ nibble ∈ nibbles,
      build (behind (place ++ [nibble]) (entriesOf nibble)) (place ++ [nibble]) =
        checked (trieOf nibble)) {count : Nat}
    (length_le :
      (nibbles.flatMap fun nibble => behind (place ++ [nibble]) (entriesOf nibble)).length ≤ count)
    (children : Children) (below : List PlacedNode) :
    runs? build place count
        (nibbles.flatMap fun nibble => behind (place ++ [nibble]) (entriesOf nibble))
        children below =
      if ∀ nibble ∈ nibbles, ∀ placed ∈ (trieOf nibble).nodes, placed.node.Encodable then
        some (nibbles.foldl (fun children nibble =>
            children.set nibble (some (trieOf nibble).root)) children,
          below ++ nibbles.flatMap fun nibble => (trieOf nibble).nodes)
      else none := by
  induction nibbles generalizing count children below with
  | nil => cases count <;> simp [runs?]
  | cons nibble nibbles ih =>
      obtain ⟨nibble_absent, nodup⟩ := List.nodup_cons.mp nodup
      obtain ⟨nibble_ne, entries_ne⟩ := List.forall_mem_cons.mp entries_ne
      obtain ⟨nibble_built, built⟩ := List.forall_mem_cons.mp built
      have taken := run?_behind_append nibble_absent place entriesOf
      have run_heads : ∀ entry ∈ behind (place ++ [nibble]) (entriesOf nibble),
          entry.1[place.length]? = some nibble := fun _ => getElem?_of_mem_behind
      have run_ne : behind (place ++ [nibble]) (entriesOf nibble) ≠ [] := by
        simpa [behind] using nibble_ne
      rw [List.flatMap_cons, List.length_append] at length_le
      rw [List.flatMap_cons]
      generalize behind (place ++ [nibble]) (entriesOf nibble) = run at *
      obtain ⟨⟨key, value⟩, more, rfl⟩ := List.exists_cons_of_ne_nil run_ne
      have found := run_heads (key, value) List.mem_cons_self
      rw [List.length_cons] at length_le
      obtain ⟨count, rfl⟩ : ∃ fewer, count = fewer + 1 := ⟨count - 1, by omega⟩
      rw [List.cons_append] at taken ⊢
      rw [runs?]
      simp only [found, taken, nibble_built, Option.bind_eq_bind, Option.bind_some, checked]
      by_cases encodable : ∀ placed ∈ (trieOf nibble).nodes, placed.node.Encodable
      · rw [if_pos encodable, Option.bind_some, ih nodup entries_ne built (by omega)]
        simp only [List.forall_mem_cons, List.foldl_cons, List.flatMap_cons, List.append_assoc]
        exact if_congr (and_iff_right encodable).symm rfl rfl
      · rw [if_neg encodable, Option.bind_none, if_neg]
        exact fun all => encodable (all nibble List.mem_cons_self)

private theorem get_foldl_set (root : Nibble → Digest) (nibbles : List Nibble)
    (children : Children) (nibble : Nibble) :
    (nibbles.foldl (fun children nibble => children.set nibble (some (root nibble)))
        children).get nibble =
      if nibble ∈ nibbles then some (root nibble) else children.get nibble := by
  induction nibbles generalizing children with
  | nil => rfl
  | cons first nibbles ih =>
      rw [List.foldl_cons, ih, Children.get_set]
      by_cases later : nibble ∈ nibbles
      · rw [if_pos later, if_pos (List.mem_cons_of_mem _ later)]
      · by_cases same : first = nibble
        · simp [same]
        · simp [later, same, Ne.symm same]

theorem foldl_set_heads (root : Nibble → Digest) :
    (heads entries).foldl (fun children nibble => children.set nibble (some (root nibble)))
        Children.absent =
      .ofFn fun nibble => if under nibble entries = [] then none else some (root nibble) := by
  refine Children.ext_get fun nibble => ?_
  rw [get_foldl_set, Children.get_ofFn]
  by_cases part_eq : under nibble entries = []
  · simp [heads, part_eq, Children.get_absent]
  · simp [heads, part_eq]

end runs

theorem buildWithin?_singleton (height : Nat) (place key : Nibbles) (value : Bytes) :
    buildWithin? H (height + 1) (behind place [(key, value)]) place =
      checked (top H place (.leaf key value) []) := by
  rw [behind, List.map_singleton, buildWithin?, Nibbles.slice?_append, checked_top]
  simp

theorem buildWithin?_of_sharedPrefix {height : Nat} (sorted : Sorted entries)
    (two_le : 2 ≤ entries.length) :
    buildWithin? H (height + 1) (behind place entries) place =
      if sharedPrefix entries = [] then
        (runs? (buildWithin? H height) place entries.length (behind place entries) .absent []).bind
          fun made => top? H place (.branch made.1 none) made.2
      else
        (buildWithin? H height (behind place entries) (place ++ sharedPrefix entries)).bind
          fun part => top? H place (.extension (sharedPrefix entries) part.root) part.nodes := by
  have entries_ne : entries ≠ [] := List.ne_nil_of_length_pos (by omega)
  obtain ⟨first, head_eq⟩ : ∃ first, entries.head? = some first :=
    ⟨_, List.head?_eq_some_head entries_ne⟩
  obtain ⟨last, getLast_eq⟩ : ∃ last, entries.getLast? = some last :=
    ⟨_, List.getLast?_eq_some_getLast entries_ne⟩
  have shared_eq := sorted.sharedPrefix_eq head_eq getLast_eq
  have begins := sharedPrefix_isPrefix (List.mem_of_head? head_eq)
  have behind_eq : (behind place entries).head? = some (place ++ first.1, first.2) ∧
      (behind place entries).getLast? = some (place ++ last.1, last.2) := by
    simp [behind, List.head?_map, List.getLast?_map, head_eq, getLast_eq]
  rw [buildWithin?]
  · simp only [behind_eq, Option.bind_eq_bind, Option.bind_some, Nibbles.slice?_append,
      ← shared_eq, Nibbles.slice?_append_of_isPrefix place begins, List.length_pos_iff, ne_eq,
      ite_not]
    rw [behind, List.length_map]
  · rintro key value single
    have length_eq := congrArg List.length single
    rw [behind, List.length_map, List.length_singleton] at length_eq
    omega

private theorem bind_runs? {height length : Nat} (keyed : Keyed (length + 1) entries)
    (sorted : Sorted entries)
    (built : ∀ nibble, under nibble entries ≠ [] →
      buildWithin? H (height + 1) (behind (place ++ [nibble]) (under nibble entries))
          (place ++ [nibble]) =
        checked (ofSuffixes H height (place ++ [nibble]) (under nibble entries))) :
    ((runs? (buildWithin? H (height + 1)) place entries.length (behind place entries)
        .absent []).bind fun made => top? H place (.branch made.1 none) made.2) =
      checked (top H place (.branch
        (.ofFn fun nibble => if under nibble entries = [] then none
          else some (ofSuffixes H height (place ++ [nibble]) (under nibble entries)).root) none)
        ((parts (fun nibble => ofSuffixes H height (place ++ [nibble])) entries).flatMap
          fun part => part.trie.nodes)) := by
  have nodup : (heads entries).Nodup := (List.nodup_finRange 16).filter _
  have heads_ne : ∀ nibble ∈ heads entries, under nibble entries ≠ [] := by
    simp [heads]
  have entries_eq : behind place entries = (heads entries).flatMap fun nibble =>
      behind (place ++ [nibble]) (under nibble entries) := by
    have parts_eq := sorted.eq_flatMap_parts
      (fun nibble => ofSuffixes H height (place ++ [nibble])) keyed.keys_ne
    rw [parts_eq_map_heads, List.flatMap_map] at parts_eq
    refine (congrArg (behind place) parts_eq).trans ?_
    rw [behind, List.map_flatMap]
    exact congrArg (List.flatMap · _) (funext fun nibble => behind_behind place [nibble] _)
  have length_le : ((heads entries).flatMap fun nibble =>
      behind (place ++ [nibble]) (under nibble entries)).length ≤ entries.length := by
    rw [← entries_eq, behind, List.length_map]
  have heads_built := fun nibble member => built nibble (heads_ne nibble member)
  rw [entries_eq, runs?_eq nodup heads_ne heads_built length_le, foldl_set_heads, checked_top,
    parts_eq_map_heads, List.flatMap_map]
  simp only [List.forall_mem_flatMap]
  split <;> rfl

/-- The recursion over sorted entries builds their trie, if all its nodes have an encoding. -/
theorem buildWithin?_eq {height length : Nat} (H : Hash) (place : Nibbles)
    (keyed : Keyed length entries) (sorted : Sorted entries) (entries_ne : entries ≠ [])
    (length_le : length ≤ height) :
    buildWithin? H (height + 1) (behind place entries) place =
      checked (ofSuffixes H height place entries) := by
  refine ofSuffixes_induction (motive := fun height place entries trie => Sorted entries →
    buildWithin? H (height + 1) (behind place entries) place = checked trie)
    ?_ ?_ ?_ place keyed entries_ne length_le sorted
  · intro height place key value _
    exact buildWithin?_singleton height place key value
  · intro height length place entries keyed two_le shared_eq built sorted
    rw [buildWithin?_of_sharedPrefix sorted two_le, if_pos shared_eq]
    exact bind_runs? keyed sorted fun nibble part_ne =>
      built nibble part_ne (sorted.under nibble)
  · intro height place entries rest trie shared_ne entries_eq two_le _ built sorted
    rw [← behind] at entries_eq
    have part_eq := built ((sorted_behind_iff (sharedPrefix entries)).mp (by rwa [entries_eq]))
    rw [← behind_behind, entries_eq] at part_eq
    have entries_two_le : 2 ≤ entries.length := by
      rwa [← entries_eq, behind, List.length_map]
    rw [buildWithin?_of_sharedPrefix sorted entries_two_le, if_neg shared_ne, part_eq, checked_top,
      checked]
    split <;> rfl

theorem sorted_ofMap (entries : Std.TreeMap Digest Bytes) :
    Sorted (entries.toList.map fun (key, value) => (key.nibbles, value)) := by
  refine List.pairwise_map.mpr (Std.TreeMap.ordered_keys_toList.imp ?_)
  intro left right less
  rwa [Path.compare_nibbles]

theorem build?_eq (H : Hash) (entries : Std.TreeMap Digest Bytes) :
    build? H entries = ofMap? H entries := by
  by_cases empty_eq : entries.isEmpty = true
  · rw [build?, if_pos empty_eq, ofMap?,
      ofMap_of_isEmpty (List.isEmpty_iff.mp (Std.TreeMap.isEmpty_toList.trans empty_eq))]
    simp [empty]
  · have entries_ne : (entries.toList.map fun (key, value) => (key.nibbles, value)) ≠ [] := by
      rwa [ne_eq, List.map_eq_nil_iff, ← List.isEmpty_iff, Std.TreeMap.isEmpty_toList]
    have built := buildWithin?_eq H [] (keyed_ofMap entries) (sorted_ofMap entries) entries_ne
      (Nat.le_refl _)
    rw [behind_nil] at built
    rw [build?, if_neg empty_eq, built]
    rfl

end Trie

end TrieSync
