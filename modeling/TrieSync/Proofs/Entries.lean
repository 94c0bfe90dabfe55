import Std.Data.TreeMap
import Std.Data.TreeSet

namespace TrieSync.Entries

variable {α β : Type} {cmp : α → α → Ordering}

@[simp] theorem toList_empty : (∅ : Std.TreeMap α β cmp).toList = [] := rfl

variable [Std.TransCmp cmp] [Std.LawfulEqCmp cmp] {map : Std.TreeMap α β cmp}

theorem nodup_toList (map : Std.TreeMap α β cmp) : map.toList.Nodup := by
  refine map.distinct_keys_toList.imp ?_
  intro left right distinct same
  exact distinct (Std.LawfulEqCmp.compare_eq_iff_eq.mpr (congrArg Prod.fst same))

theorem nodup_keys (map : Std.TreeMap α β cmp) : (map.toList.map Prod.fst).Nodup := by
  refine List.pairwise_map.mpr (map.distinct_keys_toList.imp ?_)
  intro left right distinct same
  exact distinct (Std.LawfulEqCmp.compare_eq_iff_eq.mpr same)

theorem toList_eq_of_getElem?_eq {other : Std.TreeMap α β cmp}
    (same : ∀ (key : α) (value : β), map[key]? = some value ↔ other[key]? = some value) :
    map.toList = other.toList := by
  refine (Std.TreeMap.Equiv.of_toList_perm ?_).toList_eq
  refine (List.perm_ext_iff_of_nodup (nodup_toList _) (nodup_toList _)).mpr ?_
  rintro ⟨key, value⟩
  simp only [Std.TreeMap.mem_toList_iff_getElem?_eq_some]
  exact same key value

theorem getElem?_foldl_insert {entries : List (α × β)} {key : α} {value : β}
    (found : (entries.foldl (fun map entry => map.insert entry.1 entry.2) map)[key]? = some value) :
    map[key]? = some value ∨ (key, value) ∈ entries := by
  induction entries generalizing map with
  | nil => exact .inl found
  | cons first rest ih =>
      rcases ih found with inserted | member
      · rw [Std.TreeMap.getElem?_insert] at inserted
        split at inserted
        · rename_i same
          rw [← Std.LawfulEqCmp.compare_eq_iff_eq.mp same, ← Option.some.inj inserted]
          exact .inr List.mem_cons_self
        · exact .inl inserted
      · exact .inr (List.mem_cons_of_mem _ member)

theorem contains_foldl_insert_iff (entries : List (α × β)) (key : α) :
    (entries.foldl (fun map entry => map.insert entry.1 entry.2) map).contains key = true ↔
      map.contains key = true ∨ key ∈ entries.map Prod.fst := by
  induction entries generalizing map with
  | nil => simp
  | cons first rest ih =>
      rw [List.foldl_cons, ih, Std.TreeMap.contains_insert]
      simp only [Bool.or_eq_true, beq_iff_eq, Std.LawfulEqCmp.compare_eq_iff_eq, List.map_cons,
        List.mem_cons]
      rw [or_comm (a := first.1 = key), or_assoc, eq_comm (a := first.1)]

theorem mem_foldl_insert_iff {ι : Type} (items : List ι) (f : ι → α) (set : Std.TreeSet α cmp)
    (key : α) :
    key ∈ items.foldl (fun set item => set.insert (f item)) set ↔ key ∈ items.map f ∨ key ∈ set := by
  induction items generalizing set with
  | nil => simp
  | cons first rest ih =>
      rw [List.foldl_cons, ih, Std.TreeSet.mem_insert, Std.LawfulEqCmp.compare_eq_iff_eq,
        List.map_cons, List.mem_cons]
      rw [← or_assoc, or_comm (b := f first = key), eq_comm (a := f first)]

theorem mem_erase_iff {set : Std.TreeSet α cmp} {key other : α} :
    key ∈ set.erase other ↔ other ≠ key ∧ key ∈ set := by
  rw [Std.TreeSet.mem_erase, ne_eq, Std.LawfulEqCmp.compare_eq_iff_eq]

theorem mem_foldl_erase_iff (items : List α) (set : Std.TreeSet α cmp) (key : α) :
    key ∈ items.foldl (fun set item => set.erase item) set ↔ key ∈ set ∧ key ∉ items := by
  induction items generalizing set with
  | nil => simp
  | cons first rest ih =>
      rw [List.foldl_cons, ih, mem_erase_iff, List.mem_cons, not_or, and_comm (b := key ∈ set),
        and_assoc, ne_comm]

theorem nodup_elements (set : Std.TreeSet α cmp) : set.toList.Nodup := by
  refine set.distinct_toList.imp ?_
  intro left right distinct same
  exact distinct (Std.LawfulEqCmp.compare_eq_iff_eq.mpr same)

section insert

open Std.DTreeMap.Internal

/-- A tree stays the same, down to its shape, if a value is put where it is already. -/
private theorem impl_insert_eq_self [Ord α] [Std.LawfulEqOrd α] {key : α} {value : β}
    (tree : Impl α (fun _ => β)) (balanced : tree.Balanced)
    (found : Impl.Const.get? tree key = some value) :
    (tree.insert key value balanced).impl = tree := by
  induction tree with
  | leaf => simp [Impl.Const.get?] at found
  | inner size first held left right left_ih right_ih =>
      rw [Impl.Const.get?] at found
      rw [Impl.insert]
      cases order : compare key first with
      | lt =>
          simp only [order] at found ⊢
          rw [Impl.balanceL_eq_balance]
          simp only [left_ih balanced.left found]
          exact Impl.balance_eq_inner balanced
      | gt =>
          simp only [order] at found ⊢
          rw [Impl.balanceR_eq_balance]
          simp only [right_ih balanced.right found]
          exact Impl.balance_eq_inner balanced
      | eq =>
          simp only [order, Option.some.injEq] at found ⊢
          obtain rfl := Std.LawfulEqOrd.compare_eq_iff_eq.mp order
          rw [found]

omit [Std.TransCmp cmp] in
theorem insert_eq_self {key : α} {value : β} (found : map[key]? = some value) :
    map.insert key value = map := by
  obtain ⟨⟨tree, wellFormed⟩⟩ := map
  let order : Ord α := ⟨cmp⟩
  have lawful : Std.LawfulEqOrd α := inferInstanceAs (Std.LawfulEqCmp cmp)
  have same := impl_insert_eq_self tree wellFormed.balanced found
  show (⟨⟨(tree.insert key value wellFormed.balanced).impl, _⟩⟩ : Std.TreeMap α β cmp) = _
  simp only [same]

end insert

variable [DecidableEq α]

theorem getElem?_insert (map : Std.TreeMap α β cmp) (key other : α) (value : β) :
    (map.insert key value)[other]? = if key = other then some value else map[other]? := by
  rw [Std.TreeMap.getElem?_insert]
  simp only [Std.LawfulEqCmp.compare_eq_iff_eq]

theorem getElem?_erase (map : Std.TreeMap α β cmp) (key other : α) :
    (map.erase key)[other]? = if key = other then none else map[other]? := by
  rw [Std.TreeMap.getElem?_erase]
  simp only [Std.LawfulEqCmp.compare_eq_iff_eq]

theorem getElem?_foldl_erase (entries : List (α × β)) (map : Std.TreeMap α β cmp) (key : α) :
    (entries.foldl (fun map entry => map.erase entry.1) map)[key]? =
      if key ∈ entries.map Prod.fst then none else map[key]? := by
  induction entries generalizing map with
  | nil => simp
  | cons first rest ih =>
      rw [List.foldl_cons, ih, getElem?_erase, List.map_cons]
      by_cases later : key ∈ rest.map Prod.fst
      · simp [later]
      · by_cases same : first.1 = key
        · simp [same]
        · simp [later, same, Ne.symm same]

theorem toList_insert_perm {key : α} (value : β) (absent : map[key]? = none) :
    (map.insert key value).toList.Perm ((key, value) :: map.toList) := by
  refine (List.perm_ext_iff_of_nodup (nodup_toList _) ?_).mpr ?_
  · refine List.nodup_cons.mpr ⟨?_, nodup_toList _⟩
    simp [absent]
  · rintro ⟨other, found⟩
    simp only [Std.TreeMap.mem_toList_iff_getElem?_eq_some, getElem?_insert, List.mem_cons,
      Prod.mk.injEq]
    by_cases same : key = other
    · subst same
      simp [absent, eq_comm]
    · simp [same, Ne.symm same]

theorem perm_cons_erase {key : α} {value : β} (present : map[key]? = some value) :
    map.toList.Perm ((key, value) :: (map.erase key).toList) := by
  refine (List.perm_ext_iff_of_nodup (nodup_toList _) ?_).mpr ?_
  · refine List.nodup_cons.mpr ⟨?_, nodup_toList _⟩
    simp
  · rintro ⟨other, found⟩
    simp only [Std.TreeMap.mem_toList_iff_getElem?_eq_some, getElem?_erase, List.mem_cons,
      Prod.mk.injEq]
    by_cases same : key = other
    · subst same
      simp [present, eq_comm]
    · simp [same, Ne.symm same]

theorem insert_perm_cons_erase (map : Std.TreeMap α β cmp) (key : α) (next : β) :
    (map.insert key next).toList.Perm ((key, next) :: (map.erase key).toList) := by
  have found : (map.insert key next)[key]? = some next := by simp
  refine (perm_cons_erase found).trans (List.Perm.cons _ ?_)
  refine (List.perm_ext_iff_of_nodup (nodup_toList _) (nodup_toList _)).mpr ?_
  rintro ⟨other, value⟩
  simp only [Std.TreeMap.mem_toList_iff_getElem?_eq_some, getElem?_erase, getElem?_insert]
  split <;> rfl

end TrieSync.Entries
