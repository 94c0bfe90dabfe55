import Mathlib.Tactic.ByContra
import TrieSync.Proofs.Entries
import TrieSync.Proofs.Request
import TrieSync.Sync.RequestTable

namespace TrieSync

namespace RequestTable

variable {table : RequestTable} {id : RequestId} {request : Request}

/-- The live requests, in no order that matters. -/
def requests (table : RequestTable) : List Request :=
  table.slots.toList.filterMap fun slot => slot

/-- The requests that wait for others, each once for every reference that it makes. -/
def waiters (table : RequestTable) : List RequestId :=
  table.requests.flatMap Request.waiters

theorem lt_size_of_live (live : table.live? id = some request) : id < table.slots.size := by
  by_contra beyond
  rw [live?, Array.getElem?_eq_none (Nat.le_of_not_lt beyond)] at live
  simp at live

theorem live?_set_of_live (live : table.live? id = some request) (next : Request)
    (other : RequestId) :
    (table.set id next).live? other = if id = other then some next else table.live? other :=
  live?_set table next other (lt_size_of_live live)

theorem live?_set_self (live : table.live? id = some request) (next : Request) :
    (table.set id next).live? id = some next :=
  (live?_set_of_live live next id).trans (if_pos rfl)

theorem live?_set_cases (live : table.live? id = some request) {other : RequestId} {old : Request}
    (old_live : table.live? other = some old) (next : Request) :
    id = other ∧ old = request ∨ (table.set id next).live? other = some old := by
  by_cases same : id = other
  · subst same
    exact .inl ⟨rfl, Option.some.inj (old_live.symm.trans live)⟩
  · exact .inr ((live?_set_of_live live next other).trans ((if_neg same).trans old_live))

theorem slots_of_live (live : table.live? id = some request) :
    table.slots[id]? = some (some request) :=
  Option.join_eq_some_iff.mp live

theorem set_self (live : table.live? id = some request) : table.set id request = table := by
  have slots_eq : table.slots.setIfInBounds id (some request) = table.slots := by
    apply Array.ext_getElem?
    intro other
    rw [Array.getElem?_setIfInBounds]
    split
    · rename_i same
      subst same
      rw [if_pos (lt_size_of_live live), slots_of_live live]
    · rfl
  rw [set, slots_eq]

private theorem exists_slots_eq {slot : Option Request} (found : table.slots[id]? = some slot) :
    ∃ front back, table.slots.toList = front ++ slot :: back ∧
      ∀ next, (table.slots.setIfInBounds id next).toList = front ++ next :: back := by
  obtain ⟨bound, rfl⟩ := Array.getElem?_eq_some_iff.mp found
  have length_eq : (table.slots.toList.take id).length = id := by simp [Nat.le_of_lt bound]
  have slots_eq : table.slots.toList =
      table.slots.toList.take id ++ table.slots[id] :: table.slots.toList.drop (id + 1) := by
    rw [← Array.getElem_toList, List.getElem_cons_drop, List.take_append_drop]
  refine ⟨_, _, slots_eq, ?_⟩
  intro next
  rw [Array.toList_setIfInBounds]
  refine (congrArg (fun slots => slots.set id next) slots_eq).trans ?_
  simp [List.set_append_right _ _ (Nat.le_of_eq length_eq), Nat.le_of_lt bound]

theorem mem_requests_iff : request ∈ table.requests ↔ ∃ id, table.live? id = some request := by
  simp only [requests, List.mem_filterMap, Array.mem_toList_iff, Array.mem_iff_getElem?, live?]
  constructor
  · rintro ⟨slot, ⟨id, found⟩, rfl⟩
    exact ⟨id, by rw [found]; rfl⟩
  · rintro ⟨id, found⟩
    exact ⟨some request, ⟨id, Option.join_eq_some_iff.mp found⟩, rfl⟩

theorem live?_eq_of_mem_requests (h : request ∈ table.requests) :
    ∃ id, table.live? id = some request :=
  mem_requests_iff.mp h

theorem exists_requests_perm (live : table.live? id = some request) :
    ∃ others : List Request, table.requests.Perm (request :: others) ∧
      (∀ next, (table.set id next).requests.Perm (next :: others)) ∧
      (table.slots.setIfInBounds id none).toList.filterMap (fun slot => slot) = others := by
  obtain ⟨front, back, slots_eq, set_eq⟩ := exists_slots_eq (slots_of_live live)
  refine ⟨front.filterMap (fun slot => slot) ++ back.filterMap fun slot => slot, ?_, ?_, ?_⟩
  · simp only [requests, slots_eq, List.filterMap_append, List.filterMap_cons]
    exact List.perm_middle
  · intro next
    simp only [requests, set, set_eq, List.filterMap_append, List.filterMap_cons]
    exact List.perm_middle
  · simp only [set_eq, List.filterMap_append, List.filterMap_cons]

theorem exists_flatMap_perm {α : Type} (live : table.live? id = some request)
    (f : Request → List α) :
    ∃ rest : List α, (table.requests.flatMap f).Perm (f request ++ rest) ∧
      (∀ next, ((table.set id next).requests.flatMap f).Perm (f next ++ rest)) ∧
      ∀ next, (table.remove id next).requests.flatMap f = rest := by
  obtain ⟨others, requests_perm, set_perm, remove_eq⟩ := exists_requests_perm live
  refine ⟨others.flatMap f, requests_perm.flatMap_right f,
    fun next => (set_perm next).flatMap_right f, fun next => ?_⟩
  rw [← remove_eq]
  rfl

/-- The indices lead to live requests, and new requests take slots that are empty. -/
structure WellFormed (table : RequestTable) : Prop where
  mem_free_iff : ∀ id, id ∈ table.free ↔ id < table.slots.size ∧ table.live? id = none
  nodup_free : table.free.Nodup
  mem_byDigest_iff : ∀ digest id, id ∈ table.byDigest.getD digest [] ↔
    ∃ request, table.live? id = some request ∧ request.occurrence.digest = digest
  byPath_live : ∀ {path : Path} {id}, table.byPath[path]? = some id →
    ∃ request, table.live? id = some request ∧ path ∈ request.paths
  queue_live : ∀ {path : Path} {id}, table.queue[path]? = some id →
    ∃ request, table.live? id = some request ∧ request.occurrence.path = path ∧
      request.bytes = none
  inFlight_live : ∀ {id}, id ∈ table.inFlight →
    ∃ request, table.live? id = some request ∧ request.bytes = none
  notQueued_of_inFlight : ∀ {id}, id ∈ table.inFlight → ∀ path : Path, table.queue[path]? ≠ some id
  aliases_eq_nil : ∀ {id request bytes}, table.live? id = some request →
    request.bytes = some bytes → request.aliases = []

theorem wellFormed_empty : empty.WellFormed where
  mem_free_iff := by simp [empty]
  nodup_free := List.nodup_nil
  mem_byDigest_iff := by simp [empty, live?]
  byPath_live := by simp [empty]
  queue_live := by simp [empty]
  inFlight_live := by simp [empty]
  notQueued_of_inFlight := by simp [empty]
  aliases_eq_nil := by simp [empty, live?]

theorem WellFormed.unknown_of_inFlight (h : table.WellFormed) (inFlight : id ∈ table.inFlight)
    (live : table.live? id = some request) : request.bytes = none := by
  obtain ⟨current, current_live, unknown⟩ := h.inFlight_live inFlight
  exact Option.some.inj (current_live.symm.trans live) ▸ unknown

theorem requests_eq (table : RequestTable) :
    table.requests = (List.range table.slots.size).filterMap table.live? := by
  have slots_eq : table.slots.toList = (List.range table.slots.size).map table.live? := by
    refine List.ext_getElem (by simp) ?_
    intro id bound _
    simp only [Array.length_toList] at bound
    simp [live?, bound]
  rw [requests, slots_eq, List.filterMap_map]
  rfl

theorem WellFormed.length_requests (h : table.WellFormed) :
    table.requests.length = table.size := by
  have free_perm : table.free.Perm
      ((List.range table.slots.size).filter fun id => (table.live? id).isNone) := by
    refine (List.perm_ext_iff_of_nodup h.nodup_free (List.nodup_range.filter _)).mpr ?_
    intro id
    simp [h.mem_free_iff]
  have ids_eq := List.length_eq_countP_add_countP (fun id => (table.live? id).isSome)
    (l := List.range table.slots.size)
  rw [size, free_perm.length_eq, requests_eq, List.length_filterMap_eq_countP,
    ← List.countP_eq_length_filter]
  simp only [List.length_range, Bool.not_eq_true, Option.isSome_eq_false_iff] at ids_eq
  simp only [Bool.decide_eq_true] at ids_eq
  omega

theorem WellFormed.set (h : table.WellFormed) (live : table.live? id = some request)
    {next : Request} (occurrence_eq : next.occurrence = request.occurrence)
    (bytes_eq : next.bytes = request.bytes) (paths_subset : request.paths ⊆ next.paths)
    (aliases_eq : ∀ {bytes}, next.bytes = some bytes → next.aliases = []) :
    (table.set id next).WellFormed where
  mem_free_iff other := by
    rw [live?_set_of_live live]
    simp only [RequestTable.set, Array.size_setIfInBounds, h.mem_free_iff]
    by_cases same : id = other
    · subst same
      simp [live]
    · simp [same]
  nodup_free := h.nodup_free
  mem_byDigest_iff digest other := by
    refine (h.mem_byDigest_iff digest other).trans ?_
    rw [live?_set_of_live live]
    by_cases same : id = other
    · subst same
      simp [live, occurrence_eq]
    · simp [same]
  byPath_live {path other} found := by
    obtain ⟨old, old_live, member⟩ := h.byPath_live found
    rcases live?_set_cases live old_live next with ⟨rfl, rfl⟩ | kept
    · exact ⟨next, live?_set_self live next, paths_subset member⟩
    · exact ⟨old, kept, member⟩
  queue_live {path other} found := by
    obtain ⟨old, old_live, path_eq, unknown⟩ := h.queue_live found
    rcases live?_set_cases live old_live next with ⟨rfl, rfl⟩ | kept
    · exact ⟨next, live?_set_self live next, by rw [occurrence_eq, path_eq], by rw [bytes_eq, unknown]⟩
    · exact ⟨old, kept, path_eq, unknown⟩
  inFlight_live {other} found := by
    obtain ⟨old, old_live, unknown⟩ := h.inFlight_live found
    rcases live?_set_cases live old_live next with ⟨rfl, rfl⟩ | kept
    · exact ⟨next, live?_set_self live next, by rw [bytes_eq, unknown]⟩
    · exact ⟨old, kept, unknown⟩
  notQueued_of_inFlight := h.notQueued_of_inFlight
  aliases_eq_nil {other current bytes} current_live known := by
    rw [live?_set_of_live live] at current_live
    split at current_live
    · obtain rfl : next = current := by simpa using current_live
      exact aliases_eq known
    · exact h.aliases_eq_nil current_live known

theorem WellFormed.setPending (h : table.WellFormed) (live : table.live? id = some request)
    (pending : Nat) : (table.set id { request with pending }).WellFormed :=
  h.set live rfl rfl (List.Subset.refl _) fun known =>
    show request.aliases = [] from h.aliases_eq_nil live known

theorem WellFormed.insertPath (h : table.WellFormed) (live : table.live? id = some request)
    {path : Path} (member : path ∈ request.paths) :
    ({ table with byPath := table.byPath.insert path id } : RequestTable).WellFormed where
  mem_free_iff := h.mem_free_iff
  nodup_free := h.nodup_free
  mem_byDigest_iff := h.mem_byDigest_iff
  byPath_live {other owner} found := by
    rw [Entries.getElem?_insert] at found
    split at found
    · rename_i same
      obtain rfl : id = owner := by simpa using found
      exact ⟨request, live, same ▸ member⟩
    · exact h.byPath_live found
  queue_live := h.queue_live
  inFlight_live := h.inFlight_live
  notQueued_of_inFlight := h.notQueued_of_inFlight
  aliases_eq_nil := h.aliases_eq_nil

section allocate

theorem live?_allocate_fst (h : table.WellFormed) (request : Request) :
    table.live? (table.allocate request).1 = none := by
  unfold allocate
  split
  · simp [live?]
  · rename_i id free free_eq
    exact ((h.mem_free_iff id).mp (by simp [free_eq])).2

theorem live?_allocate (h : table.WellFormed) (request : Request) (other : RequestId) :
    (table.allocate request).2.live? other =
      if (table.allocate request).1 = other then some request else table.live? other := by
  unfold allocate
  split
  · simp only [live?, Array.getElem?_push, eq_comm]
    split <;> simp
  · rename_i id free free_eq
    exact live?_set table request other ((h.mem_free_iff id).mp (by simp [free_eq])).1

theorem live?_allocate_of_live (h : table.WellFormed) (request : Request) {old : Request}
    (live : table.live? id = some old) : (table.allocate request).2.live? id = some old := by
  have unused := live?_allocate_fst h request
  rw [live?_allocate h, if_neg ?_, live]
  rintro rfl
  simp [unused] at live

theorem byPath_allocate (table : RequestTable) (request : Request) :
    (table.allocate request).2.byPath =
      table.byPath.insert request.occurrence.path (table.allocate request).1 := by
  unfold allocate
  split <;> rfl

theorem byDigest_allocate (table : RequestTable) (request : Request) :
    (table.allocate request).2.byDigest =
      table.byDigest.insert request.occurrence.digest
        (table.byDigest.getD request.occurrence.digest [] ++ [(table.allocate request).1]) := by
  unfold allocate
  split <;> rfl

theorem queue_allocate (table : RequestTable) (request : Request) :
    (table.allocate request).2.queue = table.queue := by
  unfold allocate
  split <;> rfl

theorem inFlight_allocate (table : RequestTable) (request : Request) :
    (table.allocate request).2.inFlight = table.inFlight := by
  unfold allocate
  split <;> rfl

theorem requests_allocate_perm (h : table.WellFormed) (request : Request) :
    (table.allocate request).2.requests.Perm (request :: table.requests) := by
  unfold allocate
  split
  · simp [requests, List.filterMap_append]
  · rename_i id free free_eq
    obtain ⟨bound, unused⟩ := (h.mem_free_iff id).mp (by simp [free_eq])
    have found : table.slots[id]? = some none := by
      rw [live?, Array.getElem?_eq_getElem bound, Option.join_some] at unused
      rw [Array.getElem?_eq_getElem bound, unused]
    obtain ⟨front, back, slots_eq, set_eq⟩ := exists_slots_eq found
    simp only [requests, set, set_eq, slots_eq, List.filterMap_append, List.filterMap_cons]
    exact List.perm_middle

private theorem mem_free_allocate_iff (h : table.WellFormed) (request : Request)
    (other : RequestId) :
    other ∈ (table.allocate request).2.free ↔
      other < (table.allocate request).2.slots.size ∧
        (table.allocate request).2.live? other = none := by
  rw [live?_allocate h]
  have free_iff := h.mem_free_iff other
  unfold allocate
  split
  · rename_i free_eq
    simp only [free_eq, List.not_mem_nil, false_iff, Array.size_push] at free_iff ⊢
    rintro ⟨bound, unused⟩
    split at unused
    · simp at unused
    · rename_i other_ne
      exact free_iff ⟨Nat.lt_of_le_of_ne (Nat.le_of_lt_succ bound) (Ne.symm other_ne), unused⟩
  · rename_i id free free_eq
    have nodup := h.nodup_free
    simp only [free_eq, List.mem_cons, List.nodup_cons, set, Array.size_setIfInBounds]
      at free_iff nodup ⊢
    by_cases same : id = other
    · subst same
      simp [nodup.1]
    · simpa [same, Ne.symm same] using free_iff

private theorem nodup_free_allocate (h : table.WellFormed) (request : Request) :
    (table.allocate request).2.free.Nodup := by
  have nodup := h.nodup_free
  unfold allocate
  split
  · exact nodup
  · rename_i id free free_eq
    rw [free_eq] at nodup
    exact nodup.of_cons

theorem WellFormed.allocate (h : table.WellFormed) {request : Request}
    (aliases_eq : request.aliases = []) : (table.allocate request).2.WellFormed where
  mem_free_iff := mem_free_allocate_iff h request
  nodup_free := nodup_free_allocate h request
  mem_byDigest_iff digest other := by
    have unused := live?_allocate_fst h request
    rw [live?_allocate h, byDigest_allocate, Std.TreeMap.getD_insert]
    simp only [Std.LawfulEqCmp.compare_eq_iff_eq]
    have old := h.mem_byDigest_iff digest other
    by_cases same : (table.allocate request).1 = other
    · rw [same] at unused
      split
      · rename_i digest_eq
        simp [same, digest_eq]
      · rename_i digest_ne
        simp [digest_ne, old, unused]
    · split
      · rename_i digest_eq
        subst digest_eq
        simp [Ne.symm same, old]
      · simp [old]
  byPath_live {path other} found := by
    rw [byPath_allocate, Entries.getElem?_insert] at found
    split at found
    · rename_i path_eq
      obtain rfl := Option.some.inj found
      exact ⟨request, (live?_allocate h request _).trans (if_pos rfl), path_eq ▸ List.mem_cons_self⟩
    · obtain ⟨old, old_live, member⟩ := h.byPath_live found
      exact ⟨old, live?_allocate_of_live h request old_live, member⟩
  queue_live {path other} found := by
    rw [queue_allocate] at found
    obtain ⟨old, old_live, facts⟩ := h.queue_live found
    exact ⟨old, live?_allocate_of_live h request old_live, facts⟩
  inFlight_live {other} found := by
    rw [inFlight_allocate] at found
    obtain ⟨old, old_live, facts⟩ := h.inFlight_live found
    exact ⟨old, live?_allocate_of_live h request old_live, facts⟩
  notQueued_of_inFlight {other} found path := by
    rw [inFlight_allocate] at found
    rw [queue_allocate]
    exact h.notQueued_of_inFlight found path
  aliases_eq_nil {other current bytes} current_live known := by
    rw [live?_allocate h] at current_live
    split at current_live
    · obtain rfl : request = current := by simpa using current_live
      exact aliases_eq
    · exact h.aliases_eq_nil current_live known

end allocate

theorem queue_insert (table : RequestTable) (occurrence : Occurrence)
    (parents : List RequestId) :
    (table.insert occurrence parents).queue =
      table.queue.insert occurrence.path
        (table.allocate (.waiting occurrence parents none)).1 := by
  rw [← queue_allocate table (.waiting occurrence parents none)]
  rfl

theorem WellFormed.insert (h : table.WellFormed) (occurrence : Occurrence)
    (parents : List RequestId) : (table.insert occurrence parents).WellFormed := by
  have allocated : (table.allocate (.waiting occurrence parents none)).2.WellFormed :=
    h.allocate rfl
  have unused := live?_allocate_fst h (.waiting occurrence parents none)
  have live_new := live?_allocate h (.waiting occurrence parents none)
  exact
    { mem_free_iff := allocated.mem_free_iff
      nodup_free := allocated.nodup_free
      mem_byDigest_iff := allocated.mem_byDigest_iff
      byPath_live := allocated.byPath_live
      queue_live := by
        intro path other found
        rw [queue_insert, Entries.getElem?_insert] at found
        split at found
        · rename_i path_eq
          obtain rfl := Option.some.inj found
          exact ⟨_, (live_new _).trans (if_pos rfl), path_eq, rfl⟩
        · exact allocated.queue_live (by rw [queue_allocate]; exact found)
      inFlight_live := allocated.inFlight_live
      notQueued_of_inFlight := by
        intro other found path same
        have found : other ∈ table.inFlight := by
          rw [← inFlight_allocate table (.waiting occurrence parents none)]
          exact found
        rw [queue_insert, Entries.getElem?_insert] at same
        split at same
        · obtain rfl := Option.some.inj same
          obtain ⟨old, old_live, -⟩ := h.inFlight_live found
          simp [unused] at old_live
        · exact h.notQueued_of_inFlight found path same
      aliases_eq_nil := allocated.aliases_eq_nil }

theorem inFlight_insert (table : RequestTable) (occurrence : Occurrence)
    (parents : List RequestId) : (table.insert occurrence parents).inFlight = table.inFlight :=
  inFlight_allocate table (.waiting occurrence parents none)

theorem requests_insertFetched_perm (h : table.WellFormed) {occurrence : Occurrence} {bytes : Bytes}
    {parents : List RequestId} {after : RequestTable}
    (inserted : table.insertFetched occurrence bytes parents = (id, after)) :
    after.requests.Perm (.waiting occurrence parents (some bytes) :: table.requests) := by
  obtain rfl : (table.allocate (.waiting occurrence parents (some bytes))).2 = after :=
    congrArg Prod.snd inserted
  exact requests_allocate_perm h _

theorem queue_insertFetched {occurrence : Occurrence} {bytes : Bytes} {parents : List RequestId}
    {after : RequestTable} (inserted : table.insertFetched occurrence bytes parents = (id, after)) :
    after.queue = table.queue ∧ after.inFlight = table.inFlight := by
  have after_eq : after = (table.allocate (.waiting occurrence parents (some bytes))).2 :=
    (congrArg Prod.snd inserted).symm
  rw [after_eq]
  exact ⟨queue_allocate table _, inFlight_allocate table _⟩

theorem await_eq (live : table.live? id = some request) :
    table.await id = .ok (table.set id { request with pending := request.pending + 1 }) := by
  rw [await, get_eq_ok_iff.mpr live]
  rfl

/-- The table after a live request was linked to a place. -/
def linked (table : RequestTable) (id : RequestId) (request : Request) (path : Path)
    (parent : Option RequestId) : RequestTable :=
  if path ∈ request.paths then
    table.set id (request.link path parent)
  else
    { table.set id (request.link path parent) with byPath := table.byPath.insert path id }

theorem link_eq (live : table.live? id = some request) (path : Path)
    (parent : Option RequestId) :
    table.link id path parent = .ok (table.linked id request path parent) := by
  rw [link, get_eq_ok_iff.mpr live, linked]
  show (if path ∈ request.paths then _ else _) = _
  split <;> rfl

@[simp] theorem byDigest_linked (table : RequestTable) (id : RequestId) (request : Request)
    (path : Path) (parent : Option RequestId) :
    (table.linked id request path parent).byDigest = table.byDigest := by
  unfold linked
  split <;> rfl

@[simp] theorem queue_linked (table : RequestTable) (id : RequestId) (request : Request) (path : Path)
    (parent : Option RequestId) : (table.linked id request path parent).queue = table.queue := by
  unfold linked
  split <;> rfl

@[simp] theorem inFlight_linked (table : RequestTable) (id : RequestId) (request : Request)
    (path : Path) (parent : Option RequestId) :
    (table.linked id request path parent).inFlight = table.inFlight := by
  unfold linked
  split <;> rfl

theorem live?_linked (live : table.live? id = some request) (path : Path)
    (parent : Option RequestId) (other : RequestId) :
    (table.linked id request path parent).live? other =
      if id = other then some (request.link path parent) else table.live? other := by
  unfold linked
  split <;> exact live?_set_of_live live _ other

theorem live?_linked_self (live : table.live? id = some request) (path : Path)
    (parent : Option RequestId) :
    (table.linked id request path parent).live? id = some (request.link path parent) :=
  (live?_linked live path parent id).trans (if_pos rfl)

theorem requests_linked (table : RequestTable) (id : RequestId) (request : Request) (path : Path)
    (parent : Option RequestId) :
    (table.linked id request path parent).requests =
      (table.set id (request.link path parent)).requests := by
  unfold linked
  split <;> rfl

theorem linked_none (live : table.live? id = some request) {path : Path}
    (member : path ∈ request.paths) :
    table.linked id request path none = table := by
  rw [linked, if_pos member, Request.link_none member, set_self live]

theorem byPath_linked (table : RequestTable) (id : RequestId) (request : Request) (path : Path)
    (parent : Option RequestId) (other : Path) :
    (table.linked id request path parent).byPath[other]? = table.byPath[other]? ∨
      path = other := by
  unfold linked
  split
  · exact .inl rfl
  · show (table.byPath.insert path id)[other]? = _ ∨ _
    rw [Entries.getElem?_insert]
    split
    · exact .inr ‹_›
    · exact .inl rfl

theorem WellFormed.linked (h : table.WellFormed) (live : table.live? id = some request)
    {path : Path} (parent : Option RequestId)
    (own : ∀ {bytes}, request.bytes = some bytes → path = request.occurrence.path) :
    (table.linked id request path parent).WellFormed := by
  have kept : (table.set id (request.link path parent)).WellFormed := by
    refine h.set live (by simp) (by simp) (Request.paths_subset_paths_link request path parent) ?_
    intro bytes known
    rw [Request.bytes_link] at known
    rw [Request.link, if_pos (own known)]
    show request.aliases = []
    exact h.aliases_eq_nil live known
  unfold RequestTable.linked
  split
  · exact kept
  · refine kept.insertPath (live?_set_self live _) ?_
    exact Request.mem_paths_link request path parent

theorem byPath_unlink (table : RequestTable) (id : RequestId) (paths : List Path) (path : Path) :
    (table.unlink id paths).byPath[path]? =
      if path ∈ paths ∧ table.byPath[path]? = some id then none else table.byPath[path]? := by
  unfold unlink
  generalize table.byPath = byPath
  induction paths generalizing byPath with
  | nil => simp
  | cons first rest ih =>
      rw [List.foldl_cons, ih]
      split <;> rename_i first_eq
      · rw [Entries.getElem?_erase]
        by_cases same : first = path
        · subst same
          simp [first_eq]
        · simp [same, Ne.symm same]
      · by_cases same : path = first
        · subst same
          simp [first_eq]
        · simp [same]

/-- The table after the bytes of a live request arrived. -/
def answered (table : RequestTable) (id : RequestId) (request : Request) (bytes : Bytes) :
    RequestTable :=
  { (table.set id { request with bytes := some bytes, aliases := [] }).unlink id
      (request.aliases.map Alias.path) with
    inFlight := table.inFlight.erase id }

theorem fetched_eq (live : table.live? id = some request) (bytes : Bytes) :
    table.fetched id bytes = .ok (request.aliases, table.answered id request bytes) := by
  rw [fetched, get_eq_ok_iff.mpr live]
  rfl

theorem live?_answered (live : table.live? id = some request) (bytes : Bytes)
    (other : RequestId) :
    (table.answered id request bytes).live? other =
      if id = other then some { request with bytes := some bytes, aliases := [] }
      else table.live? other :=
  live?_set_of_live live _ other

theorem WellFormed.answered (h : table.WellFormed) (live : table.live? id = some request)
    (bytes : Bytes) (inFlight : id ∈ table.inFlight) :
    (table.answered id request bytes).WellFormed where
  mem_free_iff other := by
    rw [live?_answered live]
    refine (h.mem_free_iff other).trans ?_
    simp only [RequestTable.answered, unlink, RequestTable.set, Array.size_setIfInBounds]
    by_cases same : id = other
    · subst same
      simp [live]
    · simp [same]
  nodup_free := h.nodup_free
  mem_byDigest_iff digest other := by
    rw [live?_answered live]
    refine (h.mem_byDigest_iff digest other).trans ?_
    by_cases same : id = other
    · subst same
      simp [live]
    · simp [same]
  byPath_live {path other} found := by
    change (unlink _ _ _).byPath[path]? = some other at found
    rw [byPath_unlink] at found
    split at found
    · simp at found
    · rename_i kept
      change table.byPath[path]? = some other at found
      obtain ⟨old, old_live, member⟩ := h.byPath_live found
      rw [live?_answered live]
      by_cases same : id = other
      · subst same
        obtain rfl : request = old := by simpa [live] using old_live
        refine ⟨_, if_pos rfl, ?_⟩
        -- of its entries only that of its own place is left
        have not_alias : path ∉ request.aliases.map Alias.path := fun member =>
          kept ⟨member, found⟩
        simpa [Request.paths, not_alias] using member
      · exact ⟨old, by simp [same, old_live], member⟩
  queue_live {path other} found := by
    obtain ⟨old, old_live, facts⟩ := h.queue_live found
    have other_ne : id ≠ other := by
      rintro rfl
      exact h.notQueued_of_inFlight inFlight path found
    exact ⟨old, by rw [live?_answered live, if_neg other_ne, old_live], facts⟩
  inFlight_live {other} found := by
    obtain ⟨other_ne, found⟩ := Entries.mem_erase_iff.mp found
    obtain ⟨old, old_live, facts⟩ := h.inFlight_live found
    exact ⟨old, by rw [live?_answered live, if_neg other_ne, old_live], facts⟩
  notQueued_of_inFlight {other} found path := by
    exact h.notQueued_of_inFlight (Entries.mem_erase_iff.mp found).2 path
  aliases_eq_nil {other current known_bytes} current_live known := by
    rw [live?_answered live] at current_live
    split at current_live
    · obtain rfl := Option.some.inj current_live
      rfl
    · exact h.aliases_eq_nil current_live known

theorem live?_remove (live : table.live? id = some request) (next : Request)
    (other : RequestId) :
    (table.remove id next).live? other = if id = other then none else table.live? other := by
  have bound := lt_size_of_live live
  simp only [live?, remove, Array.getElem?_setIfInBounds, bound]
  split <;> simp

private theorem getD_byDigest_remove (table : RequestTable) (id : RequestId) (request : Request)
    (digest : Digest) :
    (table.remove id request).byDigest.getD digest [] =
      if request.occurrence.digest = digest then
        (table.byDigest.getD digest []).filter (· ≠ id)
      else table.byDigest.getD digest [] := by
  simp only [remove]
  split
  · rename_i none_left
    rw [Std.TreeMap.getD_erase]
    simp only [Std.LawfulEqCmp.compare_eq_iff_eq]
    split
    · rename_i digest_eq
      rw [← digest_eq, none_left]
    · rfl
  · rw [Std.TreeMap.getD_insert]
    simp only [Std.LawfulEqCmp.compare_eq_iff_eq]
    split
    · rename_i digest_eq
      rw [digest_eq]
    · rfl

theorem WellFormed.remove (h : table.WellFormed) (live : table.live? id = some request) :
    (table.remove id request).WellFormed where
  mem_free_iff other := by
    rw [live?_remove live]
    have free_iff := h.mem_free_iff other
    have bound := lt_size_of_live live
    simp only [RequestTable.remove, List.mem_cons, Array.size_setIfInBounds]
    by_cases same : id = other
    · subst same
      simp [bound]
    · simpa [same, Ne.symm same] using free_iff
  nodup_free := by
    refine List.nodup_cons.mpr ⟨?_, h.nodup_free⟩
    rw [h.mem_free_iff, live]
    simp
  mem_byDigest_iff digest other := by
    rw [getD_byDigest_remove, live?_remove live]
    have old := h.mem_byDigest_iff digest other
    by_cases same : id = other
    · subst same
      split
      · simp
      · rename_i digest_ne
        simpa [live, digest_ne] using old
    · split
      · simpa [same, Ne.symm same] using old
      · simpa [same] using old
  byPath_live {path other} found := by
    change (unlink _ _ _).byPath[path]? = some other at found
    rw [byPath_unlink] at found
    split at found
    · simp at found
    · rename_i kept
      obtain ⟨old, old_live, member⟩ := h.byPath_live found
      -- the entries that led to the request itself were dropped
      have other_ne : id ≠ other := by
        rintro rfl
        obtain rfl : request = old := by simpa [live] using old_live
        exact kept ⟨member, found⟩
      exact ⟨old, by rw [live?_remove live, if_neg other_ne, old_live], member⟩
  queue_live {path other} found := by
    change (table.queue.erase request.occurrence.path)[path]? = some other at found
    rw [Entries.getElem?_erase] at found
    split at found
    · simp at found
    · rename_i path_ne
      obtain ⟨old, old_live, path_eq, unknown⟩ := h.queue_live found
      have other_ne : id ≠ other := by
        rintro rfl
        obtain rfl : request = old := by simpa [live] using old_live
        exact path_ne path_eq
      exact ⟨old, by rw [live?_remove live, if_neg other_ne, old_live], path_eq, unknown⟩
  inFlight_live {other} found := by
    obtain ⟨other_ne, found⟩ := Entries.mem_erase_iff.mp found
    obtain ⟨old, old_live, facts⟩ := h.inFlight_live found
    exact ⟨old, by rw [live?_remove live, if_neg other_ne, old_live], facts⟩
  notQueued_of_inFlight {other} found path same := by
    change (table.queue.erase request.occurrence.path)[path]? = some other at same
    rw [Entries.getElem?_erase] at same
    split at same
    · simp at same
    · exact h.notQueued_of_inFlight (Entries.mem_erase_iff.mp found).2 path same
  aliases_eq_nil {other current known_bytes} current_live known := by
    rw [live?_remove live] at current_live
    split at current_live
    · simp at current_live
    · exact h.aliases_eq_nil current_live known

section handOut

/-- The queued requests that are handed out next. -/
def chosen (table : RequestTable) (max : Nat) : List (Path × RequestId) :=
  if max = 0 then table.queue.toList else table.queue.toList.take max

theorem queue_of_mem_chosen {max : Nat} {path : Path} (h : (path, id) ∈ table.chosen max) :
    table.queue[path]? = some id := by
  unfold chosen at h
  rw [← Std.TreeMap.mem_toList_iff_getElem?_eq_some]
  split at h
  · exact h
  · exact List.mem_of_mem_take h

theorem nodup_chosen (table : RequestTable) (max : Nat) :
    ((table.chosen max).map Prod.fst).Nodup := by
  unfold chosen
  split
  · exact Entries.nodup_keys _
  · exact (Entries.nodup_keys _).sublist ((List.take_sublist _ _).map Prod.fst)

/-- The table after requests were handed out. -/
def handedOut (table : RequestTable) (max : Nat) : RequestTable :=
  { table with
    queue := (table.chosen max).foldl (fun queue (path, _) => queue.erase path) table.queue
    inFlight := (table.chosen max).foldl (fun inFlight (_, id) => inFlight.insert id)
      table.inFlight }

theorem queue_handedOut (table : RequestTable) (max : Nat) (path : Path) :
    (table.handedOut max).queue[path]? =
      if path ∈ (table.chosen max).map Prod.fst then none else table.queue[path]? :=
  Entries.getElem?_foldl_erase _ _ _

theorem mem_inFlight_handedOut (table : RequestTable) (max : Nat) (other : RequestId) :
    other ∈ (table.handedOut max).inFlight ↔
      other ∈ (table.chosen max).map Prod.snd ∨ other ∈ table.inFlight :=
  Entries.mem_foldl_insert_iff _ _ _ _

/-- The node of a queued request, at its own place. -/
def Offered (table : RequestTable) (entries : List (Path × RequestId)) (occurrence : Occurrence) :
    Prop :=
  ∃ id request, (occurrence.path, id) ∈ entries ∧ table.live? id = some request ∧
    request.bytes = none ∧ request.occurrence = occurrence

private theorem mapM_offered (h : table.WellFormed) {max : Nat} {entries : List (Path × RequestId)}
    (subset : entries ⊆ table.chosen max) :
    ∃ occurrences, entries.mapM (fun (path, id) => do
      let request ← table.get id
      return (⟨path, request.occurrence.digest⟩ : Occurrence)) = .ok occurrences ∧
        occurrences.map Occurrence.path = entries.map Prod.fst ∧
        ∀ occurrence, occurrence ∈ occurrences ↔ table.Offered entries occurrence := by
  induction entries with
  | nil => exact ⟨[], rfl, rfl, by simp [Offered]⟩
  | cons first rest ih =>
      obtain ⟨path, id⟩ := first
      obtain ⟨first_mem, rest_subset⟩ := List.cons_subset.mp subset
      obtain ⟨occurrences, rest_eq, paths_eq, offered_iff⟩ := ih rest_subset
      obtain ⟨request, live, rfl, unknown⟩ := h.queue_live (queue_of_mem_chosen first_mem)
      refine ⟨request.occurrence :: occurrences, ?_, by simp [paths_eq], ?_⟩
      · simp only [List.mapM_cons, rest_eq, get_eq_ok_iff.mpr live]
        rfl
      · intro occurrence
        rw [List.mem_cons, offered_iff]
        constructor
        · rintro (rfl | ⟨other, current, member, facts⟩)
          · exact ⟨id, request, List.mem_cons_self, live, unknown, rfl⟩
          · exact ⟨other, current, List.mem_cons_of_mem _ member, facts⟩
        · rintro ⟨other, current, member, current_live, facts⟩
          rcases List.mem_cons.mp member with same | member
          · obtain ⟨-, rfl⟩ := Prod.mk.inj same
            obtain rfl := Option.some.inj (live.symm.trans current_live)
            exact .inl facts.2.symm
          · exact .inr ⟨other, current, member, current_live, facts⟩

theorem handOut_offered (h : table.WellFormed) (max : Nat) :
    ∃ occurrences, table.handOut max = .ok (occurrences, table.handedOut max) ∧
      occurrences.map Occurrence.path = (table.chosen max).map Prod.fst ∧
      ∀ occurrence, occurrence ∈ occurrences ↔ table.Offered (table.chosen max) occurrence := by
  obtain ⟨occurrences, chosen_eq, facts⟩ := mapM_offered h (List.Subset.refl (table.chosen max))
  refine ⟨occurrences, ?_, facts⟩
  unfold chosen at chosen_eq
  rw [handOut]
  simp only [chosen_eq, handedOut, chosen]
  rfl

theorem WellFormed.handedOut (h : table.WellFormed) (max : Nat) :
    (table.handedOut max).WellFormed where
  mem_free_iff := h.mem_free_iff
  nodup_free := h.nodup_free
  mem_byDigest_iff := h.mem_byDigest_iff
  byPath_live := h.byPath_live
  queue_live {path other} found := by
    rw [queue_handedOut] at found
    split at found
    · simp at found
    · exact h.queue_live found
  inFlight_live {other} found := by
    rw [mem_inFlight_handedOut] at found
    rcases found with chosen | found
    · obtain ⟨⟨path, _⟩, member, rfl⟩ := List.mem_map.mp chosen
      obtain ⟨request, live, -, unknown⟩ := h.queue_live (queue_of_mem_chosen member)
      exact ⟨request, live, unknown⟩
    · exact h.inFlight_live found
  notQueued_of_inFlight {other} found path same := by
    rw [mem_inFlight_handedOut] at found
    rw [queue_handedOut] at same
    split at same
    · simp at same
    · rename_i kept
      rcases found with chosen | found
      · obtain ⟨⟨own, _⟩, member, rfl⟩ := List.mem_map.mp chosen
        obtain ⟨request, live, own_eq, -⟩ := h.queue_live (queue_of_mem_chosen member)
        obtain ⟨again, again_live, path_eq, -⟩ := h.queue_live same
        obtain rfl : request = again := by simpa [live] using again_live
        exact kept (List.mem_map.mpr ⟨_, member, own_eq.symm.trans path_eq⟩)
      · exact h.notQueued_of_inFlight found path same
  aliases_eq_nil := h.aliases_eq_nil

end handOut

end RequestTable

end TrieSync
