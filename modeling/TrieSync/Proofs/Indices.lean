import Mathlib.Data.Set.Card
import TrieSync.Hash.Sha256
import TrieSync.Proofs.Undisputed

namespace TrieSync

theorem encard_setOf_mem {α : Type} [DecidableEq α] {items : List α} (nodup : items.Nodup) :
    {item | item ∈ items}.encard = items.length := by
  rw [← List.coe_toFinset, Set.encard_coe_eq_coe_finsetCard, List.toFinset_card_of_nodup nodup]

namespace RequestTable

variable {table after : RequestTable} {id : RequestId} {request : Request}

/-- What is held beside the slots is what the requests in them call for, no more and no less. -/
structure Exact (table : RequestTable) : Prop where
  byPath_iff : ∀ (path : Path) id, table.byPath[path]? = some id ↔
    ∃ request, table.live? id = some request ∧ path ∈ request.paths
  byDigest_iff : ∀ (digest : Digest) id,
    (∃ ids, table.byDigest[digest]? = some ids ∧ id ∈ ids) ↔
      ∃ request, table.live? id = some request ∧ request.occurrence.digest = digest
  byDigest_nodup : ∀ {digest : Digest} {ids}, table.byDigest[digest]? = some ids → ids.Nodup
  byDigest_ne_nil : ∀ {digest : Digest} {ids}, table.byDigest[digest]? = some ids → ids ≠ []
  queue_iff : ∀ (path : Path) id, table.queue[path]? = some id ↔
    ∃ request, table.live? id = some request ∧ request.bytes = none ∧ id ∉ table.inFlight ∧
      request.occurrence.path = path
  /-- Deeper places come first, and places of one depth in their order. -/
  queue_sorted : (table.queue.toList.map Prod.fst).Pairwise fun first second =>
    second.depth < first.depth ∨ first.depth = second.depth ∧ compare first second = .lt
  inFlight_iff : ∀ id, id ∈ table.inFlight ↔
    ∃ request, table.live? id = some request ∧ request.bytes = none ∧
      ∀ path : Path, table.queue[path]? ≠ some id
  unknown_of_aliases : ∀ {id request}, table.live? id = some request → request.aliases ≠ [] →
    request.bytes = none
  aliases_nodup : ∀ {id request}, table.live? id = some request →
    (request.aliases.map Alias.path).Nodup
  aliases_elsewhere : ∀ {id request}, table.live? id = some request → ∀ other ∈ request.aliases,
    other.path ≠ request.occurrence.path
  free_iff : ∀ id, id ∈ table.free ↔ table.slots[id]? = some none
  free_nodup : table.free.Nodup

/-- Every list of requests for a digest names some, each of them once. -/
def Enumerates (table : RequestTable) : Prop :=
  ∀ (digest : Digest) ids, table.byDigest[digest]? = some ids → ids ≠ [] ∧ ids.Nodup

namespace Enumerates

theorem of_byDigest_eq (h : table.Enumerates) (byDigest_eq : after.byDigest = table.byDigest) :
    after.Enumerates := by
  intro digest ids found
  rw [byDigest_eq] at found
  exact h digest ids found

theorem nodup_getD (h : table.Enumerates) (digest : Digest) :
    (table.byDigest.getD digest []).Nodup := by
  rw [Std.TreeMap.getD_eq_getD_getElem?]
  cases found : table.byDigest[digest]? with
  | none => exact List.nodup_nil
  | some ids => exact (h digest ids found).2

theorem allocate (h : table.Enumerates) (wellFormed : table.WellFormed) (request : Request) :
    (table.allocate request).2.Enumerates := by
  intro digest ids found
  rw [byDigest_allocate, Entries.getElem?_insert] at found
  split at found
  · obtain rfl := Option.some.inj found
    refine ⟨List.append_ne_nil_of_right_ne_nil _ (List.cons_ne_nil _ _), ?_⟩
    refine (h.nodup_getD _).append (List.nodup_singleton _) (List.disjoint_singleton.mpr ?_)
    intro listed
    -- Whatever a list names is live, and the slot of the new request was not.
    obtain ⟨old, live, -⟩ := (wellFormed.mem_byDigest_iff _ _).mp listed
    simp [live?_allocate_fst wellFormed] at live
  · exact h digest ids found

theorem remove (h : table.Enumerates) (id : RequestId) (request : Request) :
    (table.remove id request).Enumerates := by
  intro digest ids found
  simp only [RequestTable.remove] at found
  split at found
  · rw [Entries.getElem?_erase] at found
    split at found
    · simp at found
    · exact h digest ids found
  · rename_i others_ne
    rw [Entries.getElem?_insert] at found
    split at found
    · obtain rfl := Option.some.inj found
      exact ⟨others_ne, (h.nodup_getD _).filter _⟩
    · exact h digest ids found

end Enumerates

theorem WellFormed.size_eq (h : table.WellFormed) :
    (table.size : ℕ∞) = {id | ∃ request, table.live? id = some request}.encard := by
  have nodup : ((List.range table.slots.size).filter fun id => (table.live? id).isSome).Nodup :=
    List.nodup_range.filter _
  have live_eq : {id | ∃ request, table.live? id = some request} =
      {id | id ∈ (List.range table.slots.size).filter fun id => (table.live? id).isSome} := by
    ext id
    simp only [Set.mem_ofPred_eq, List.mem_filter, List.mem_range, Option.isSome_iff_exists]
    exact ⟨fun ⟨request, live⟩ => ⟨lt_size_of_live live, request, live⟩, And.right⟩
  rw [live_eq, encard_setOf_mem nodup, ← h.length_requests, requests_eq,
    List.length_filterMap_eq_countP, List.countP_eq_length_filter]

/-- A table of which all indices agree is exact. That each entry belongs to a live request is part
of being well-formed; that no entry is missing is not, where two requests may want one place. -/
theorem WellFormed.exact (h : table.WellFormed)
    (requested : ∀ id request, table.live? id = some request → request.bytes = none →
      table.queue[request.occurrence.path]? = some id ∨ id ∈ table.inFlight)
    (listed : table.Listed) (enumerates : table.Enumerates) : table.Exact where
  byPath_iff path id := by
    refine ⟨h.byPath_live, ?_⟩
    rintro ⟨request, live, member⟩
    exact listed.found live member
  byDigest_iff digest id := by
    rw [← h.mem_byDigest_iff, Std.TreeMap.getD_eq_getD_getElem?]
    cases table.byDigest[digest]? <;> simp
  byDigest_nodup found := (enumerates _ _ found).2
  byDigest_ne_nil found := (enumerates _ _ found).1
  queue_iff path id := by
    constructor
    · intro queued
      obtain ⟨request, live, path_eq, unknown⟩ := h.queue_live queued
      exact ⟨request, live, unknown, fun inFlight => h.notQueued_of_inFlight inFlight path queued,
        path_eq⟩
    · rintro ⟨request, live, unknown, not_inFlight, rfl⟩
      exact (requested id request live unknown).resolve_right not_inFlight
  queue_sorted := by
    refine List.pairwise_map.mpr (table.queue.ordered_keys_toList.imp ?_)
    intro first second ordered
    rcases Ordering.then_eq_lt.mp ordered with deeper | ⟨same, before⟩
    · exact .inl (Nat.compare_eq_lt.mp deeper)
    · exact .inr ⟨(Nat.compare_eq_eq.mp same).symm, before⟩
  inFlight_iff id := by
    constructor
    · intro inFlight
      obtain ⟨request, live, unknown⟩ := h.inFlight_live inFlight
      exact ⟨request, live, unknown, h.notQueued_of_inFlight inFlight⟩
    · rintro ⟨request, live, unknown, not_queued⟩
      exact (requested id request live unknown).resolve_left (not_queued _)
  unknown_of_aliases {id request} live aliases_ne := by
    by_contra known
    obtain ⟨bytes, known⟩ := Option.ne_none_iff_exists'.mp known
    exact aliases_ne (h.aliases_eq_nil live known)
  aliases_nodup live := (List.nodup_cons.mp (listed.nodup live)).2
  aliases_elsewhere live other member same :=
    (List.nodup_cons.mp (listed.nodup live)).1 (same ▸ List.mem_map_of_mem member)
  free_iff id := by
    rw [h.mem_free_iff, live?, Array.getElem?_eq_some_iff]
    constructor
    · rintro ⟨bound, unused⟩
      rw [Array.getElem?_eq_getElem bound, Option.join_some] at unused
      exact ⟨bound, unused⟩
    · rintro ⟨bound, unused⟩
      rw [Array.getElem?_eq_getElem bound, Option.join_some]
      exact ⟨bound, unused⟩
  free_nodup := h.nodup_free

end RequestTable

namespace CodeTable

theorem size_eq (table : CodeTable) :
    (table.size : ℕ∞) = {digest | digest ∈ table.requests}.encard := by
  have live_eq : {digest | digest ∈ table.requests} =
      {digest | digest ∈ table.requests.toList.map Prod.fst} := by
    ext digest
    simp
  rw [live_eq, encard_setOf_mem (Entries.nodup_keys _), List.length_map,
    Std.TreeMap.length_toList, size]

end CodeTable

theorem Task.opens_eq_singleton {H : Hash} (task : Task) {occurrence : Occurrence}
    (h : occurrence ∈ task.opens H) : task.opens H = [occurrence] := by
  cases task with
  | node parent node =>
      simp only [opens] at h ⊢
      split at h
      · simp at h
      · rename_i digest_ne
        rw [if_neg digest_ne, List.mem_singleton.mp h]
  | place node bytes parents => rw [opens, List.mem_singleton.mp h]
  | code | release => simp [opens] at h

namespace Scheduler

variable {H : Hash} {store : Store} {schema : Schema} {root : Digest} {call : Call} {task : Task}
  {tasks new : List Task} {scheduler start after : Scheduler} {past : List Occurrence}
  {deeds : List Deed} {said : List Message}

theorem Addressed.listed_step (addressed : Addressed H (task :: tasks) scheduler past)
    (wellFormed : scheduler.requests.WellFormed) (step : Step H store scheduler task new after)
    (h : scheduler.requests.Listed) : after.requests.Listed := by
  refine step.listed wellFormed h fun {node} opens _ _ id request live => ?_
  exact addressed.notMem_paths wellFormed (task.opens_eq_singleton opens) live

theorem Step.enumerates (wellFormed : scheduler.requests.WellFormed)
    (step : Step H store scheduler task new after) (h : scheduler.requests.Enumerates) :
    after.requests.Enumerates := by
  have awaited (parent : Option RequestId) : (scheduler.awaited parent).requests.Enumerates :=
    h.of_byDigest_eq (byDigest_awaited scheduler parent)
  cases step with
  | skipEmpty | skipStaged | skipStored | skipCode | count => exact h
  | copy | askCode => exact awaited _
  | joinHere | joinElsewhere =>
      exact (awaited _).of_byDigest_eq (RequestTable.byDigest_linked _ _ _ _ _)
  | ask => exact (awaited _).allocate (wellFormed_awaited wellFormed _) _
  | askAgain => exact h.allocate wellFormed _
  | @resolve occurrence bytes parents references id requests decoded inserted =>
      obtain rfl : (scheduler.requests.insertFetched occurrence bytes parents).2 = requests :=
        congrArg Prod.snd inserted
      exact (h.allocate wellFormed _).of_byDigest_eq (byDigest_awaited _ _)
  | @complete id request =>
      have counted : (scheduler.requests.set id { request with pending := 0 }).Enumerates := h
      exact counted.remove id _

/-- What a scheduler of one trie keeps true of its indices. -/
structure Indexing (H : Hash) (tasks : List Task) (scheduler : Scheduler) : Prop where
  outstanding : Outstanding H tasks scheduler
  listed : scheduler.requests.Listed
  enumerates : scheduler.requests.Enumerates

namespace Indexing

theorem step (h : Indexing H (task :: tasks) scheduler)
    (coherent : Coherent (task :: tasks) scheduler) (step : Step H store scheduler task new after) :
    Indexing H (new ++ tasks) after := by
  obtain ⟨past, addressed⟩ := h.outstanding.addressed
  have wellFormed := coherent.counted.wellFormed
  exact ⟨h.outstanding.step coherent step, addressed.listed_step wellFormed step h.listed,
    step.enumerates wellFormed h.enumerates⟩

theorem works (h : Indexing H tasks scheduler) (coherent : Coherent tasks scheduler)
    (works : Works H store tasks scheduler after) : Indexing H [] after :=
  (works.keeps (Indexing H) (fun coherent h step => h.step coherent step) coherent h).2

theorem turn (h : Indexing H [] scheduler) (coherent : Coherent [] scheduler)
    (no_trie : ∀ occurrence, call ≠ .addSubTrie occurrence)
    (turn : Turn H scheduler call tasks start) : Indexing H tasks start := by
  have outstanding := h.outstanding.turn coherent no_trie turn
  cases turn with
  | addSubTrie | addCode | missing | processCode =>
      exact ⟨outstanding, ⟨h.listed.found, h.listed.nodup⟩, h.enumerates⟩
  | @processNode path bytes id request references responsible inFlight live =>
      have received_listed : (scheduler.received id request bytes).requests.Listed :=
        h.listed.answered live bytes
      exact ⟨outstanding, listed_awaited _ received_listed,
        h.enumerates.of_byDigest_eq (byDigest_awaited _ _)⟩

theorem commit (h : Indexing H [] scheduler) :
    Indexing H [] { scheduler with staging := .empty } :=
  ⟨h.outstanding.commit, h.listed, h.enumerates⟩

theorem ofRoot (H : Hash) (schema : Schema) (root : Digest) :
    Indexing H [.node none ⟨.root, root⟩] (idle schema) where
  outstanding := .ofRoot H schema root
  listed := ⟨by simp [idle, RequestTable.live?, RequestTable.empty],
    by simp [idle, RequestTable.live?, RequestTable.empty]⟩
  enumerates := by simp [RequestTable.Enumerates, idle, RequestTable.empty]

theorem of_life (no_trie : ∀ store occurrence, .call store (.addSubTrie occurrence) ∉ deeds)
    (lived : life H store schema root deeds = .ok (scheduler, said)) :
    Coherent [] scheduler ∧ Indexing H [] scheduler := by
  refine life_keeps (P := fun scheduler _ => Indexing H [] scheduler) ?_ ?_ lived
  · exact fun works =>
      (ofRoot H schema root).works (coherent_node (coherent_idle schema) _) works
  · intro scheduler all deed said after member coherent h acts
    cases acts with
    | refuse | commitNothing => exact h
    | @perform store call tasks start after performed turn start_coherent works =>
        have no_trie_call : ∀ occurrence, call ≠ .addSubTrie occurrence := by
          rintro occurrence rfl
          exact no_trie store occurrence member
        exact (h.turn coherent no_trie_call turn).works start_coherent works
    | commit => exact h.commit

end Indexing

/-- However a scheduler is answered and whatever the store holds, its indices are exact between
calls, and it counts the requests that are live. -/
theorem exact_of_life (no_trie : ∀ store occurrence, .call store (.addSubTrie occurrence) ∉ deeds)
    (lived : life H store schema root deeds = .ok (scheduler, said)) :
    scheduler.requests.Exact ∧
      (scheduler.pending : ℕ∞) =
        {id | ∃ request, scheduler.requests.live? id = some request}.encard +
          {digest | digest ∈ scheduler.codes.requests}.encard := by
  obtain ⟨coherent, indexing⟩ := Indexing.of_life no_trie lived
  have wellFormed := coherent.counted.wellFormed
  refine ⟨wellFormed.exact indexing.outstanding.requested indexing.listed indexing.enumerates, ?_⟩
  rw [pending, Nat.cast_add, wellFormed.size_eq, CodeTable.size_eq]

/-- Two requests are complete and leave their slots. One of these is used again for the first child
of a branch, while the second child joins the request for its digest as an alias. -/
theorem exact_of_life_reused :
    let early : Bytes := (Node.leaf [1, 2] [6]).encode
    let shared : Bytes := (Node.leaf [1, 2] [7]).encode
    let other : Bytes := (Node.leaf [3] [9]).encode
    let late : Bytes := (Node.leaf [4] [9]).encode
    let lower : Bytes := (Node.branch ((Children.absent.set 5 (some (Hash.sha256 late))).set 6
      (some (Hash.sha256 shared))) none).encode
    let children := (((Children.absent.set 0 (some (Hash.sha256 early))).set 1
      (some (Hash.sha256 shared))).set 3 (some (Hash.sha256 other))).set 4
      (some (Hash.sha256 lower))
    let upper : Bytes := (Node.branch children none).encode
    let store : Store := .empty .byPath
    let deeds : List Deed :=
      [.call store (.missing 0), .call store (.processNode .root upper), .call store (.missing 3),
        .call store (.processNode ⟨.root, [0]⟩ early),
        .call store (.processNode ⟨.root, [3]⟩ other), .call store (.missing 1),
        .call store (.processNode ⟨.root, [4]⟩ lower),
        .call store (.addCode (Hash.sha256 [3]) .root), .commit store .empty]
    (∀ store occurrence, .call store (.addSubTrie occurrence) ∉ deeds) ∧
      ∃ scheduler said, life Hash.sha256 store .plain (Hash.sha256 upper) deeds =
        .ok (scheduler, said) ∧
        (scheduler.requests.free, scheduler.requests.queue.toList, scheduler.pending) =
          ([1], [(⟨.root, [4, 5]⟩, 3)], 5) ∧
        scheduler.requests.byPath.toList =
          [(.root, 0), (⟨.root, [1]⟩, 2), (⟨.root, [4]⟩, 4), (⟨.root, [4, 5]⟩, 3),
            (⟨.root, [4, 6]⟩, 2)] ∧
        scheduler.requests.Exact ∧
        (scheduler.pending : ℕ∞) =
          {id | ∃ request, scheduler.requests.live? id = some request}.encard +
            {digest | digest ∈ scheduler.codes.requests}.encard := by
  intro early shared other late lower children upper store deeds
  have no_trie : ∀ store occurrence, .call store (.addSubTrie occurrence) ∉ deeds := by
    simp [deeds]
  refine ⟨no_trie, ?_⟩
  have held_eq : (life Hash.sha256 store .plain (Hash.sha256 upper) deeds).map
      (fun result => ((result.1.requests.free, result.1.requests.queue.toList, result.1.pending),
        result.1.requests.byPath.toList)) =
      .ok (([1], [(⟨.root, [4, 5]⟩, 3)], 5),
        [(.root, 0), (⟨.root, [1]⟩, 2), (⟨.root, [4]⟩, 4), (⟨.root, [4, 5]⟩, 3),
          (⟨.root, [4, 6]⟩, 2)]) := by
    decide +kernel
  obtain ⟨⟨scheduler, said⟩, lived, held_eq⟩ := map_eq_ok.mp held_eq
  obtain ⟨waiting_eq, places_eq⟩ := Prod.mk.inj held_eq
  exact ⟨scheduler, said, lived, waiting_eq, places_eq, exact_of_life no_trie lived⟩

end Scheduler

end TrieSync
