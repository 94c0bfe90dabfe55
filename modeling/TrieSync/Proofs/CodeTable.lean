import Mathlib.Data.List.Nodup
import TrieSync.Proofs.Entries
import TrieSync.Sync.CodeTable

namespace TrieSync

namespace CodeTable

variable {table : CodeTable} {digest : Digest}

/-- The queue and the requests in flight are the live requests, each in one of them. -/
structure WellFormed (table : CodeTable) : Prop where
  requested : ∀ {digest : Digest} {request}, table.requests[digest]? = some request →
    ⟨request.path, digest⟩ ∈ table.queue ∨ digest ∈ table.inFlight
  queue_live : ∀ {entry}, entry ∈ table.queue →
    ∃ request, table.requests[entry.digest]? = some request ∧ request.path = entry.path
  inFlight_live : ∀ {digest}, digest ∈ table.inFlight →
    ∃ request, table.requests[digest]? = some request
  notQueued_of_inFlight : ∀ {digest}, digest ∈ table.inFlight → ∀ path : Path,
    ⟨path, digest⟩ ∉ table.queue

theorem wellFormed_empty : empty.WellFormed where
  requested := by simp [empty]
  queue_live := by simp [empty]
  inFlight_live := by simp [empty]
  notQueued_of_inFlight := by simp [empty]

private theorem exists_found_insert {inserted other : CodeRequest} {key : Digest}
    (found : table.requests[key]? = some other) :
    ∃ request, (table.requests.insert digest inserted)[key]? = some request := by
  rw [Entries.getElem?_insert]
  split
  · exact ⟨_, rfl⟩
  · exact ⟨_, found⟩

private theorem WellFormed.setParents (h : table.WellFormed) {request : CodeRequest}
    (found : table.requests[digest]? = some request) (parents : List RequestId) :
    WellFormed { table with
      requests := table.requests.insert digest { request with parents } } where
  requested {other next} next_found := by
    rw [Entries.getElem?_insert] at next_found
    split at next_found
    · rename_i same
      obtain rfl := Option.some.inj next_found
      have requested := h.requested found
      exact same ▸ requested
    · exact h.requested next_found
  queue_live {entry} member := by
    obtain ⟨old, old_found, path_eq⟩ := h.queue_live member
    rw [Entries.getElem?_insert]
    split
    · rename_i same
      obtain rfl := Option.some.inj ((same ▸ found).symm.trans old_found)
      exact ⟨_, rfl, path_eq⟩
    · exact ⟨old, old_found, path_eq⟩
  inFlight_live member := by
    obtain ⟨old, old_found⟩ := h.inFlight_live member
    exact exists_found_insert old_found
  notQueued_of_inFlight := h.notQueued_of_inFlight

private theorem WellFormed.enqueue (h : table.WellFormed)
    (absent : table.requests[digest]? = none) (path : Path) (parents : List RequestId) :
    WellFormed { table with
      requests := table.requests.insert digest ⟨path, parents⟩
      queue := table.queue.insert ⟨path, digest⟩ } where
  requested {other next} found := by
    simp only [Entries.getElem?_insert, Std.TreeSet.mem_insert,
      Std.LawfulEqCmp.compare_eq_iff_eq] at found ⊢
    split at found
    · rename_i same
      obtain rfl := Option.some.inj found
      exact .inl (.inl (same ▸ rfl))
    · exact (h.requested found).imp_left .inr
  queue_live {entry} member := by
    simp only [Entries.getElem?_insert, Std.TreeSet.mem_insert,
      Std.LawfulEqCmp.compare_eq_iff_eq] at member ⊢
    rcases member with rfl | member
    · exact ⟨_, if_pos rfl, rfl⟩
    · obtain ⟨old, old_found, path_eq⟩ := h.queue_live member
      have digest_ne : digest ≠ entry.digest := by
        rintro rfl
        simp [absent] at old_found
      exact ⟨old, by rw [if_neg digest_ne, old_found], path_eq⟩
  inFlight_live member := by
    obtain ⟨old, old_found⟩ := h.inFlight_live member
    exact exists_found_insert old_found
  notQueued_of_inFlight {other} member place queued := by
    simp only [Std.TreeSet.mem_insert, Std.LawfulEqCmp.compare_eq_iff_eq] at queued
    rcases queued with same | queued
    · obtain ⟨old, old_found⟩ := h.inFlight_live member
      rw [← (Occurrence.mk.inj same).2, absent] at old_found
      simp at old_found
    · exact h.notQueued_of_inFlight member place queued

theorem WellFormed.insert (h : table.WellFormed) (digest : Digest) (path : Path)
    (parent : Option RequestId) : (table.insert digest path parent).WellFormed := by
  unfold CodeTable.insert
  split
  · exact h.setParents ‹_› _
  · exact h.enqueue ‹_› path _

@[simp] theorem inFlight_insert (table : CodeTable) (digest : Digest) (path : Path)
    (parent : Option RequestId) : (table.insert digest path parent).inFlight = table.inFlight := by
  unfold CodeTable.insert
  split <;> rfl

section handOut

/-- The queued requests that are handed out next. -/
def chosen (table : CodeTable) (max : Nat) : List Occurrence :=
  if max = 0 then table.queue.toList else table.queue.toList.take max

theorem mem_queue_of_mem_chosen {max : Nat} {entry : Occurrence} (h : entry ∈ table.chosen max) :
    entry ∈ table.queue := by
  unfold chosen at h
  rw [← Std.TreeSet.mem_toList]
  split at h
  · exact h
  · exact List.mem_of_mem_take h

theorem nodup_chosen (table : CodeTable) (max : Nat) : (table.chosen max).Nodup := by
  unfold chosen
  split
  · exact Entries.nodup_elements _
  · exact (Entries.nodup_elements _).sublist (List.take_sublist _ _)

theorem mem_queue_handOut (table : CodeTable) (max : Nat) (entry : Occurrence) :
    entry ∈ (table.handOut max).2.queue ↔ entry ∈ table.queue ∧ entry ∉ table.chosen max :=
  Entries.mem_foldl_erase_iff _ _ _

theorem mem_inFlight_handOut (table : CodeTable) (max : Nat) (digest : Digest) :
    digest ∈ (table.handOut max).2.inFlight ↔
      digest ∈ (table.handOut max).1 ∨ digest ∈ table.inFlight := by
  have inserted := Entries.mem_foldl_insert_iff (table.handOut max).1 id table.inFlight digest
  rwa [List.map_id] at inserted

theorem WellFormed.of_mem_handOut (h : table.WellFormed) {max : Nat}
    (member : digest ∈ (table.handOut max).1) :
    (∃ request, table.requests[digest]? = some request) ∧ digest ∉ table.inFlight := by
  obtain ⟨entry, chosen, rfl⟩ := List.mem_map.mp member
  have queued := mem_queue_of_mem_chosen chosen
  obtain ⟨request, found, -⟩ := h.queue_live queued
  exact ⟨⟨request, found⟩, fun inFlight => h.notQueued_of_inFlight inFlight entry.path queued⟩

theorem WellFormed.nodup_handOut (h : table.WellFormed) (max : Nat) :
    (table.handOut max).1.Nodup := by
  refine List.Nodup.map_on ?_ (table.nodup_chosen max)
  intro left left_mem right right_mem digest_eq
  obtain ⟨request, found, left_path⟩ := h.queue_live (mem_queue_of_mem_chosen left_mem)
  obtain ⟨other, other_found, right_path⟩ := h.queue_live (mem_queue_of_mem_chosen right_mem)
  rw [digest_eq, other_found] at found
  obtain ⟨leftPath, leftDigest⟩ := left
  obtain ⟨rightPath, rightDigest⟩ := right
  obtain rfl : other = request := Option.some.inj found
  exact Occurrence.mk.injEq .. ▸ ⟨left_path.symm.trans right_path, digest_eq⟩

theorem WellFormed.handOut (h : table.WellFormed) (max : Nat) :
    (table.handOut max).2.WellFormed where
  requested {digest request} found := by
    rw [mem_queue_handOut, mem_inFlight_handOut]
    rcases h.requested found with queued | inFlight
    · by_cases chosen : ⟨request.path, digest⟩ ∈ table.chosen max
      · exact .inr (.inl (List.mem_map.mpr ⟨_, chosen, rfl⟩))
      · exact .inl ⟨queued, chosen⟩
    · exact .inr (.inr inFlight)
  queue_live {entry} member := h.queue_live ((mem_queue_handOut table max entry).mp member).1
  inFlight_live {digest} member := by
    rcases (mem_inFlight_handOut table max digest).mp member with handed | inFlight
    · exact (h.of_mem_handOut handed).1
    · exact h.inFlight_live inFlight
  notQueued_of_inFlight {digest} member path queued := by
    obtain ⟨queued, not_chosen⟩ := (mem_queue_handOut table max _).mp queued
    rcases (mem_inFlight_handOut table max digest).mp member with handed | inFlight
    · obtain ⟨entry, chosen, rfl⟩ := List.mem_map.mp handed
      obtain ⟨request, found, path_eq⟩ := h.queue_live (mem_queue_of_mem_chosen chosen)
      obtain ⟨again, again_found, again_eq⟩ := h.queue_live queued
      obtain rfl : request = again := Option.some.inj (found.symm.trans again_found)
      have path_eq : path = entry.path := again_eq.symm.trans path_eq
      exact not_chosen (path_eq ▸ chosen)
    · exact h.notQueued_of_inFlight inFlight path queued

end handOut

section remove

theorem getElem?_requests_remove (table : CodeTable) (digest other : Digest) :
    (table.remove digest).2.requests[other]? =
      if digest = other then none else table.requests[other]? := by
  unfold CodeTable.remove
  dsimp only
  split
  · rename_i absent
    split
    · rename_i same
      rw [← same, absent]
    · rfl
  · exact Entries.getElem?_erase _ _ _

theorem mem_inFlight_remove (table : CodeTable) (digest other : Digest) :
    other ∈ (table.remove digest).2.inFlight ↔ digest ≠ other ∧ other ∈ table.inFlight := by
  have erased : (table.remove digest).2.inFlight = table.inFlight.erase digest := by
    unfold CodeTable.remove
    dsimp only
    split <;> rfl
  rw [erased, Entries.mem_erase_iff]

theorem WellFormed.mem_queue_remove (h : table.WellFormed) (digest : Digest) (entry : Occurrence) :
    entry ∈ (table.remove digest).2.queue ↔ digest ≠ entry.digest ∧ entry ∈ table.queue := by
  unfold CodeTable.remove
  dsimp only
  split
  · rename_i absent
    refine ⟨fun queued => ⟨?_, queued⟩, And.right⟩
    rintro rfl
    obtain ⟨request, found, -⟩ := h.queue_live queued
    simp [absent] at found
  · rename_i request found
    rw [Entries.mem_erase_iff]
    refine and_congr_left fun queued => not_congr ⟨?_, ?_⟩
    · rintro rfl
      rfl
    · rintro rfl
      obtain ⟨again, again_found, path_eq⟩ := h.queue_live queued
      obtain rfl : request = again := Option.some.inj (found.symm.trans again_found)
      rw [path_eq]

theorem WellFormed.remove (h : table.WellFormed) (digest : Digest) :
    (table.remove digest).2.WellFormed where
  requested {other request} found := by
    rw [getElem?_requests_remove] at found
    rw [h.mem_queue_remove, mem_inFlight_remove]
    split at found
    · simp at found
    · rename_i digest_ne
      exact (h.requested found).imp (⟨digest_ne, ·⟩) (⟨digest_ne, ·⟩)
  queue_live {entry} member := by
    obtain ⟨digest_ne, queued⟩ := (h.mem_queue_remove digest entry).mp member
    rw [getElem?_requests_remove, if_neg digest_ne]
    exact h.queue_live queued
  inFlight_live {other} member := by
    obtain ⟨digest_ne, inFlight⟩ := (mem_inFlight_remove table digest other).mp member
    rw [getElem?_requests_remove, if_neg digest_ne]
    exact h.inFlight_live inFlight
  notQueued_of_inFlight {other} member path queued :=
    h.notQueued_of_inFlight ((mem_inFlight_remove table digest other).mp member).2 path
      ((h.mem_queue_remove digest _).mp queued).2

end remove

end CodeTable

end TrieSync
