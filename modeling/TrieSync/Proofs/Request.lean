import Mathlib.Data.List.Perm.Basic
import TrieSync.Sync.Request

namespace TrieSync

namespace Request

/-- Where a request is waited for, and by which requests. -/
def places (request : Request) : List (Occurrence × List RequestId) :=
  (request.occurrence, request.parents) ::
    request.aliases.map fun other => (⟨other.path, request.occurrence.digest⟩, other.parents)

/-- The requests that wait for this one, each once for every reference that it makes. -/
def waiters (request : Request) : List RequestId :=
  request.places.flatMap Prod.snd

def occurrences (request : Request) : List Occurrence :=
  request.places.map Prod.fst

theorem waiters_eq (request : Request) :
    request.waiters = request.parents ++ request.aliases.flatMap Alias.parents := by
  simp [waiters, places, List.flatMap_map]

theorem map_path_occurrences (request : Request) :
    request.occurrences.map Occurrence.path = request.paths := by
  simp [occurrences, places, paths, Function.comp_def]

theorem digest_of_mem_occurrences {request : Request} {occurrence : Occurrence}
    (h : occurrence ∈ request.occurrences) :
    occurrence.digest = request.occurrence.digest := by
  simp only [occurrences, places, List.map_cons, List.map_map, List.mem_cons, List.mem_map] at h
  rcases h with rfl | ⟨other, -, rfl⟩ <;> rfl

theorem occurrence_mem_occurrences (request : Request) :
    request.occurrence ∈ request.occurrences := by
  simp [occurrences, places]

section link

variable (request : Request) (path : Path) (parent : Option RequestId)

@[simp] theorem occurrence_link : (request.link path parent).occurrence = request.occurrence := by
  unfold link
  split <;> rfl

@[simp] theorem bytes_link : (request.link path parent).bytes = request.bytes := by
  unfold link
  split <;> rfl

@[simp] theorem pending_link : (request.link path parent).pending = request.pending := by
  unfold link
  split <;> rfl

private theorem flatMap_linkAlias_perm (aliases : List Alias) :
    ((linkAlias path parent aliases).flatMap Alias.parents).Perm
      (parent.toList ++ aliases.flatMap Alias.parents) := by
  induction aliases with
  | nil => simp [linkAlias]
  | cons first rest ih =>
      unfold linkAlias
      split
      · simp only [List.flatMap_cons, List.append_assoc]
        exact List.perm_append_comm_assoc _ _ _
      · simp only [List.flatMap_cons]
        exact (ih.append_left _).trans (List.perm_append_comm_assoc _ _ _)

theorem waiters_link_perm :
    (request.link path parent).waiters.Perm (parent.toList ++ request.waiters) := by
  rw [waiters_eq, waiters_eq]
  unfold link
  split
  · simp only [List.append_assoc]
    exact List.perm_append_comm_assoc _ _ _
  · exact ((flatMap_linkAlias_perm path parent request.aliases).append_left _).trans
      (List.perm_append_comm_assoc _ _ _)

private theorem linkAlias_of_notMem {aliases : List Alias} (h : path ∉ aliases.map Alias.path) :
    linkAlias path parent aliases = aliases ++ [⟨path, parent.toList⟩] := by
  induction aliases with
  | nil => rfl
  | cons first rest ih =>
      simp only [List.map_cons, List.mem_cons, not_or] at h
      rw [linkAlias, if_neg (Ne.symm h.1), ih h.2, List.cons_append]

theorem link_of_notMem (h : path ∉ request.paths) :
    request.link path parent =
      { request with aliases := request.aliases ++ [⟨path, parent.toList⟩] } := by
  simp only [paths, List.mem_cons, not_or] at h
  rw [link, if_neg h.1, linkAlias_of_notMem path parent h.2]

private theorem mem_linkAlias {other : Alias} {aliases : List Alias} (h : other ∈ aliases) :
    ∃ next ∈ linkAlias path parent aliases,
      next.path = other.path ∧ other.parents ⊆ next.parents := by
  induction aliases with
  | nil => simp at h
  | cons first rest ih =>
      unfold linkAlias
      rcases List.mem_cons.mp h with rfl | h
      · split
        · exact ⟨_, List.mem_cons_self, rfl, List.subset_append_left _ _⟩
        · exact ⟨_, List.mem_cons_self, rfl, List.Subset.refl _⟩
      · split
        · exact ⟨other, List.mem_cons_of_mem _ h, rfl, List.Subset.refl _⟩
        · obtain ⟨next, found, same⟩ := ih h
          exact ⟨next, List.mem_cons_of_mem _ found, same⟩

private theorem exists_mem_linkAlias (aliases : List Alias) :
    ∃ next ∈ linkAlias path parent aliases,
      next.path = path ∧ parent.toList ⊆ next.parents := by
  induction aliases with
  | nil => exact ⟨_, List.mem_singleton_self _, rfl, List.Subset.refl _⟩
  | cons first rest ih =>
      unfold linkAlias
      split
      · exact ⟨_, List.mem_cons_self, ‹_›, List.subset_append_right _ _⟩
      · obtain ⟨next, found, same⟩ := ih
        exact ⟨next, List.mem_cons_of_mem _ found, same⟩

theorem mem_places_link {occurrence : Occurrence} {waiting : List RequestId}
    (h : (occurrence, waiting) ∈ request.places) :
    ∃ next, (occurrence, next) ∈ (request.link path parent).places ∧ waiting ⊆ next := by
  simp only [places, List.mem_cons, Prod.mk.injEq, List.mem_map] at h ⊢
  unfold link
  rcases h with ⟨rfl, rfl⟩ | ⟨other, found, rfl, rfl⟩
  · split
    · exact ⟨_, .inl ⟨rfl, rfl⟩, List.subset_append_left _ _⟩
    · exact ⟨_, .inl ⟨rfl, rfl⟩, List.Subset.refl _⟩
  · split
    · exact ⟨_, .inr ⟨other, found, rfl, rfl⟩, List.Subset.refl _⟩
    · obtain ⟨next, found, same, waiting⟩ := mem_linkAlias path parent found
      exact ⟨_, .inr ⟨next, found, by rw [same], rfl⟩, waiting⟩

theorem exists_mem_places_link :
    ∃ next, (⟨path, request.occurrence.digest⟩, next) ∈ (request.link path parent).places ∧
      parent.toList ⊆ next := by
  simp only [places, List.mem_cons, Prod.mk.injEq, List.mem_map]
  unfold link
  split
  · rename_i same
    exact ⟨_, .inl ⟨by rw [same], rfl⟩, List.subset_append_right _ _⟩
  · obtain ⟨next, found, same, waiting⟩ := exists_mem_linkAlias path parent request.aliases
    exact ⟨_, .inr ⟨next, found, by rw [same], rfl⟩, waiting⟩

private theorem of_mem_linkAlias {next : Alias} {aliases : List Alias} {id : RequestId}
    (h : next ∈ linkAlias path parent aliases) (waits : id ∈ next.parents) :
    (∃ old ∈ aliases, old.path = next.path ∧ id ∈ old.parents) ∨
      next.path = path ∧ parent = some id := by
  induction aliases with
  | nil =>
      obtain rfl := List.mem_singleton.mp h
      exact .inr ⟨rfl, Option.mem_toList.mp waits⟩
  | cons first rest ih =>
      unfold linkAlias at h
      split at h
      · rename_i same
        rcases List.mem_cons.mp h with rfl | h
        · rcases List.mem_append.mp waits with waits | waits
          · exact .inl ⟨first, List.mem_cons_self, rfl, waits⟩
          · exact .inr ⟨same, Option.mem_toList.mp waits⟩
        · exact .inl ⟨next, List.mem_cons_of_mem _ h, rfl, waits⟩
      · rcases List.mem_cons.mp h with rfl | h
        · exact .inl ⟨next, List.mem_cons_self, rfl, waits⟩
        · refine (ih h).imp_left ?_
          rintro ⟨old, member, facts⟩
          exact ⟨old, List.mem_cons_of_mem _ member, facts⟩

theorem places_link_cases {occurrence : Occurrence} {waiting : List RequestId} {id : RequestId}
    (h : (occurrence, waiting) ∈ (request.link path parent).places) (waits : id ∈ waiting) :
    (∃ old, (occurrence, old) ∈ request.places ∧ id ∈ old) ∨
      occurrence = ⟨path, request.occurrence.digest⟩ ∧ parent = some id := by
  simp only [places, List.mem_cons, Prod.mk.injEq, List.mem_map, occurrence_link] at h ⊢
  unfold link at h
  split at h
  · rename_i same
    subst same
    rcases h with ⟨rfl, rfl⟩ | ⟨other, found, rfl, rfl⟩
    · rcases List.mem_append.mp waits with waits | waits
      · exact .inl ⟨_, .inl ⟨rfl, rfl⟩, waits⟩
      · exact .inr ⟨rfl, Option.mem_toList.mp waits⟩
    · exact .inl ⟨_, .inr ⟨other, found, rfl, rfl⟩, waits⟩
  · rcases h with ⟨rfl, rfl⟩ | ⟨other, found, rfl, rfl⟩
    · exact .inl ⟨_, .inl ⟨rfl, rfl⟩, waits⟩
    · rcases of_mem_linkAlias path parent found waits with
        ⟨old, member, path_eq, old_waits⟩ | ⟨path_eq, parent_eq⟩
      · exact .inl ⟨_, .inr ⟨old, member, by rw [path_eq], rfl⟩, old_waits⟩
      · exact .inr ⟨by rw [path_eq], parent_eq⟩

/-- A request is still the other one, and waited for wherever that was. -/
structure Keeps (request next : Request) : Prop where
  occurrence_eq : next.occurrence = request.occurrence
  bytes_eq : next.bytes = request.bytes
  places : ∀ {occurrence waiting}, (occurrence, waiting) ∈ request.places →
    ∃ more, (occurrence, more) ∈ next.places ∧ waiting ⊆ more

theorem Keeps.occurrences_subset {request next : Request} (h : request.Keeps next) :
    request.occurrences ⊆ next.occurrences := by
  intro occurrence member
  obtain ⟨⟨_, waiting⟩, place, rfl⟩ := List.mem_map.mp member
  obtain ⟨more, found, -⟩ := h.places place
  exact List.mem_map.mpr ⟨_, found, rfl⟩

theorem Keeps.trans {request between next : Request} (h : request.Keeps between)
    (h' : between.Keeps next) : request.Keeps next where
  occurrence_eq := h'.occurrence_eq.trans h.occurrence_eq
  bytes_eq := h'.bytes_eq.trans h.bytes_eq
  places place := by
    obtain ⟨more, found, subset⟩ := h.places place
    obtain ⟨most, found, subset'⟩ := h'.places found
    exact ⟨most, found, List.Subset.trans subset subset'⟩

theorem keeps_setPending (pending : Nat) : request.Keeps { request with pending } where
  occurrence_eq := rfl
  bytes_eq := rfl
  places place := ⟨_, place, List.Subset.refl _⟩

theorem keeps_link : request.Keeps (request.link path parent) where
  occurrence_eq := occurrence_link request path parent
  bytes_eq := bytes_link request path parent
  places := mem_places_link request path parent

theorem paths_subset_paths_link : request.paths ⊆ (request.link path parent).paths := by
  rw [← map_path_occurrences, ← map_path_occurrences]
  exact List.map_subset _ (keeps_link request path parent).occurrences_subset

theorem mem_paths_link : path ∈ (request.link path parent).paths := by
  obtain ⟨next, found, -⟩ := exists_mem_places_link request path parent
  rw [← map_path_occurrences]
  exact List.mem_map.mpr ⟨_, List.mem_map.mpr ⟨_, found, rfl⟩, rfl⟩

end link

private theorem linkAlias_none {path : Path} {aliases : List Alias}
    (h : path ∈ aliases.map Alias.path) : linkAlias path none aliases = aliases := by
  induction aliases with
  | nil => simp at h
  | cons first rest ih =>
      unfold linkAlias
      split
      · simp
      · rename_i path_ne
        rcases List.mem_cons.mp h with path_eq | h
        · exact absurd path_eq.symm path_ne
        · rw [ih h]

theorem link_none {request : Request} {path : Path} (h : path ∈ request.paths) :
    request.link path none = request := by
  unfold link
  split
  · simp
  · rename_i path_ne
    rw [linkAlias_none ((List.mem_cons.mp h).resolve_left path_ne)]

theorem mem_parents_link {request : Request} {path : Path} {parent : Option RequestId}
    {id : RequestId} (h : id ∈ (request.link path parent).parents) :
    id ∈ request.parents ∨ path = request.occurrence.path ∧ id ∈ parent := by
  unfold link at h
  split at h
  · rename_i path_eq
    exact (List.mem_append.mp h).imp_right fun member => ⟨path_eq, Option.mem_toList.mp member⟩
  · exact .inl h

private theorem map_path_linkAlias {path : Path} (parent : Option RequestId) {aliases : List Alias}
    (h : path ∈ aliases.map Alias.path) :
    (linkAlias path parent aliases).map Alias.path = aliases.map Alias.path := by
  induction aliases with
  | nil => simp at h
  | cons first rest ih =>
      unfold linkAlias
      split
      · rfl
      · rename_i path_ne
        rw [List.map_cons, List.map_cons,
          ih ((List.mem_cons.mp h).resolve_left (Ne.symm path_ne))]

theorem paths_link_of_mem {request : Request} {path : Path} (parent : Option RequestId)
    (h : path ∈ request.paths) : (request.link path parent).paths = request.paths := by
  unfold link
  split
  · rfl
  · rename_i path_ne
    have alias_mem := (List.mem_cons.mp h).resolve_left path_ne
    show _ :: (linkAlias path parent request.aliases).map Alias.path = _
    rw [map_path_linkAlias parent alias_mem]
    rfl

theorem paths_link_of_notMem {request : Request} {path : Path} (parent : Option RequestId)
    (h : path ∉ request.paths) : (request.link path parent).paths = request.paths ++ [path] := by
  rw [link_of_notMem _ _ _ h]
  simp [paths]

theorem mem_occurrences_of_mem_paths {request : Request} {path : Path} (h : path ∈ request.paths) :
    (⟨path, request.occurrence.digest⟩ : Occurrence) ∈ request.occurrences := by
  rw [← map_path_occurrences] at h
  obtain ⟨occurrence, member, rfl⟩ := List.mem_map.mp h
  rw [← digest_of_mem_occurrences member]
  exact member

theorem path_mem_paths {request : Request} {occurrence : Occurrence}
    (h : occurrence ∈ request.occurrences) : occurrence.path ∈ request.paths := by
  rw [← map_path_occurrences]
  exact List.mem_map_of_mem h

end Request

end TrieSync
