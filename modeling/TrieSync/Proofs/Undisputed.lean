import TrieSync.Hash.Sha256
import TrieSync.Proofs.Rescheduling

namespace TrieSync

open Relation

namespace RequestTable

variable {table after : RequestTable} {id : RequestId} {request : Request} {path : Path}

/-- Every live request is found at each of its places, and none of them is listed twice. -/
structure Listed (table : RequestTable) : Prop where
  found : ∀ {id request}, table.live? id = some request → ∀ {path}, path ∈ request.paths →
    table.byPath[path]? = some id
  nodup : ∀ {id request}, table.live? id = some request → request.paths.Nodup

namespace Listed

theorem of_live (h : table.Listed) (byPath_eq : after.byPath = table.byPath)
    (was_live : ∀ {id next}, after.live? id = some next →
      ∃ request, table.live? id = some request ∧ next.paths = request.paths) : after.Listed where
  found {id next} live {path} member := by
    obtain ⟨request, old_live, paths_eq⟩ := was_live live
    rw [byPath_eq]
    exact h.found old_live (paths_eq ▸ member)
  nodup {id next} live := by
    obtain ⟨request, old_live, paths_eq⟩ := was_live live
    rw [paths_eq]
    exact h.nodup old_live

theorem set (h : table.Listed) (live : table.live? id = some request) {next : Request}
    (paths_eq : next.paths = request.paths) : (table.set id next).Listed := by
  refine h.of_live rfl fun {other current} current_live => ?_
  rw [live?_set_of_live live] at current_live
  split at current_live
  · rename_i same
    subst same
    obtain rfl := Option.some.inj current_live
    exact ⟨request, live, paths_eq⟩
  · exact ⟨current, current_live, rfl⟩

theorem allocate (h : table.Listed) (wellFormed : table.WellFormed) (no_aliases : request.aliases = [])
    (free : ∀ {other current}, table.live? other = some current →
      request.occurrence.path ∉ current.paths) : (table.allocate request).2.Listed where
  found {other current} live {path} member := by
    rw [live?_allocate wellFormed] at live
    rw [byPath_allocate, Entries.getElem?_insert]
    split at live
    · rename_i same
      obtain rfl := Option.some.inj live
      have path_eq : path = request.occurrence.path := by
        simpa [Request.paths, no_aliases] using member
      rw [if_pos path_eq.symm, same]
    · rw [if_neg ?_]
      · exact h.found live member
      · rintro rfl
        exact free live member
  nodup {other current} live := by
    rw [live?_allocate wellFormed] at live
    split at live
    · obtain rfl := Option.some.inj live
      simp [Request.paths, no_aliases]
    · exact h.nodup live

theorem linked (h : table.Listed) (live : table.live? id = some request) (parent : Option RequestId)
    (free : path ∉ request.paths → ∀ {other current}, table.live? other = some current →
      path ∉ current.paths) : (table.linked id request path parent).Listed := by
  by_cases member : path ∈ request.paths
  · rw [RequestTable.linked, if_pos member]
    exact h.set live (Request.paths_link_of_mem parent member)
  · have byPath_eq (other : Path) : (table.linked id request path parent).byPath[other]? =
        if path = other then some id else table.byPath[other]? := by
      rw [RequestTable.linked, if_neg member]
      exact Entries.getElem?_insert _ _ _ _
    constructor
    · intro other current current_live place place_mem
      rw [live?_linked live] at current_live
      rw [byPath_eq]
      split at current_live
      · rename_i same
        obtain rfl := Option.some.inj current_live
        rw [Request.paths_link_of_notMem parent member] at place_mem
        split
        · rw [same]
        · rename_i place_ne
          rcases List.mem_append.mp place_mem with place_mem | place_mem
          · exact h.found (same ▸ live) place_mem
          · exact absurd (List.mem_singleton.mp place_mem).symm place_ne
      · rw [if_neg ?_]
        · exact h.found current_live place_mem
        · rintro rfl
          exact free member current_live place_mem
    · intro other current current_live
      rw [live?_linked live] at current_live
      split at current_live
      · obtain rfl := Option.some.inj current_live
        rw [Request.paths_link_of_notMem parent member]
        exact (h.nodup live).append (List.nodup_singleton path)
          (List.disjoint_singleton.mpr member)
      · exact h.nodup current_live

theorem answered (h : table.Listed) (live : table.live? id = some request) (bytes : Bytes) :
    (table.answered id request bytes).Listed where
  found {other current} current_live {place} member := by
    show (RequestTable.unlink _ id _).byPath[place]? = some other
    rw [live?_answered live] at current_live
    have own := List.nodup_cons.mp (h.nodup live)
    rw [byPath_unlink, if_neg ?_]
    · split at current_live
      · rename_i same
        subst same
        obtain rfl := Option.some.inj current_live
        obtain rfl := List.mem_singleton.mp member
        exact h.found live List.mem_cons_self
      · exact h.found current_live member
    · rintro ⟨dropped, found⟩
      split at current_live
      · obtain rfl := Option.some.inj current_live
        obtain rfl := List.mem_singleton.mp member
        exact own.1 dropped
      · rename_i other_ne
        exact other_ne (Option.some.inj (found.symm.trans (h.found current_live member)))
  nodup {other current} current_live := by
    rw [live?_answered live] at current_live
    split at current_live
    · obtain rfl := Option.some.inj current_live
      exact List.nodup_singleton _
    · exact h.nodup current_live

theorem remove (h : table.Listed) (live : table.live? id = some request) (next : Request) :
    (table.remove id next).Listed where
  found {other current} current_live {place} member := by
    show (RequestTable.unlink _ id _).byPath[place]? = some other
    rw [live?_remove live] at current_live
    split at current_live
    · simp at current_live
    · rename_i other_ne
      have found := h.found current_live member
      rw [byPath_unlink, if_neg fun dropped => other_ne ?_, found]
      exact Option.some.inj (dropped.2.symm.trans found)
  nodup {other current} current_live := by
    rw [live?_remove live] at current_live
    split at current_live
    · simp at current_live
    · exact h.nodup current_live

end Listed

end RequestTable

namespace Scheduler

variable {H : Hash} {store : Store} {schema : Schema} {known : Digest → Bytes → Prop}
  {task : Task} {tasks new : List Task} {scheduler start after : Scheduler}
  {occurrence : Occurrence} {id : RequestId} {request : Request} {call : Call}

/-- No place is occupied by two different nodes. -/
def Undisputed (scheduler : Scheduler) : Prop :=
  ∀ {left right}, scheduler.Occupies left → scheduler.Occupies right → left.path = right.path →
    left.digest = right.digest

/-- Doing the tasks until none is left, while at no moment a place is disputed. -/
inductive Peaceful (H : Hash) (store : Store) : List Task → Scheduler → Scheduler → Prop
  | done {scheduler : Scheduler} (undisputed : scheduler.Undisputed) :
      Peaceful H store [] scheduler scheduler
  | step {task : Task} {tasks new : List Task} {scheduler next after : Scheduler}
      (undisputed : scheduler.Undisputed) (step : Step H store scheduler task new next)
      (rest : Peaceful H store (new ++ tasks) next after) :
      Peaceful H store (task :: tasks) scheduler after

theorem Peaceful.undisputed (peaceful : Peaceful H store tasks scheduler after) :
    scheduler.Undisputed := by
  cases peaceful with
  | done undisputed => exact undisputed
  | step undisputed => exact undisputed

/-- The states between the calls of a scheduler in a run in which no place is ever disputed. During
each of the calls no node is its own descendant. -/
inductive ReachedPeacefully (H : Hash) (schema : Schema) : Scheduler → Prop
  | start {store : Store} {root : Digest} {scheduler : Scheduler}
      (started : ofRoot H store schema root = .ok scheduler) :
      ReachedPeacefully H schema scheduler
  | call {store : Store} {call : Call} {tasks : List Task} {scheduler start after : Scheduler}
      (reached : ReachedPeacefully H schema scheduler)
      (acyclic : Acyclic H schema (scheduler.KnownTo H call))
      (performed : scheduler.perform H store call = .ok after)
      (turn : Turn H scheduler call tasks start) (peaceful : Peaceful H store tasks start after) :
      ReachedPeacefully H schema after
  | commit {scheduler : Scheduler} (reached : ReachedPeacefully H schema scheduler) (batch : Batch)
      (store : Store) : ReachedPeacefully H schema (scheduler.commit batch store).scheduler

section orderly

/-- Neither the node that a task is about, nor any node that the known bytes lead to from there, is
the given one at the given place. -/
def Avoids (H : Hash) (schema : Schema) (known : Digest → Bytes → Prop) (task : Task)
    (occurrence : Occurrence) : Prop :=
  ∀ upper ∈ task.opens H, ∀ lower, ReflTransGen (Leads H schema known) upper lower →
    lower ≠ occurrence

/-- Live requests are found at all their places, and nodes that are about to be put at further
places are not waited for there by then. -/
structure Orderly (H : Hash) (schema : Schema) (known : Digest → Bytes → Prop) (tasks : List Task)
    (scheduler : Scheduler) : Prop where
  holds : Holds schema known tasks scheduler
  listed : scheduler.requests.Listed
  unclaimed : ∀ {occurrence}, occurrence ∈ tasks.flatMap Task.puts → ∀ {id request},
    scheduler.requests.live? id = some request → occurrence ∉ request.occurrences
  apart : tasks.Pairwise fun earlier later => ∀ occurrence ∈ later.puts,
    Avoids H schema known earlier occurrence

theorem listed_awaited (parent : Option RequestId) (h : scheduler.requests.Listed) :
    (scheduler.awaited parent).requests.Listed := by
  refine h.of_live (byPath_awaited scheduler parent) fun live => ?_
  obtain ⟨pending, old_live⟩ := exists_live_of_awaited live
  exact ⟨_, old_live, rfl⟩

private theorem listed_ask (wellFormed : scheduler.requests.WellFormed)
    (h : scheduler.requests.Listed) (parents : List RequestId)
    (free : ∀ {other current}, scheduler.requests.live? other = some current →
      occurrence.path ∉ current.paths) : (scheduler.ask occurrence parents).requests.Listed := by
  have allocated : (scheduler.requests.allocate (.waiting occurrence parents none)).2.Listed :=
    h.allocate wellFormed rfl free
  exact allocated.of_live rfl fun live => ⟨_, live, rfl⟩

private theorem occupies_ask (wellFormed : scheduler.requests.WellFormed) (occurrence : Occurrence)
    (parents : List RequestId) : (scheduler.ask occurrence parents).Occupies occurrence :=
  .inl ⟨_, _, live?_ask_self wellFormed occurrence parents, Request.occurrence_mem_occurrences _⟩

private theorem occupies_linked (live : scheduler.requests.live? id = some request)
    (parent : Option RequestId) (digest_eq : request.occurrence.digest = occurrence.digest) :
    Occupies { scheduler with
      requests := scheduler.requests.linked id request occurrence.path parent } occurrence := by
  refine .inl ⟨id, _, RequestTable.live?_linked_self live occurrence.path parent, ?_⟩
  have member := Request.mem_occurrences_of_mem_paths
    (Request.mem_paths_link request occurrence.path parent)
  rwa [Request.occurrence_link, digest_eq] at member

private theorem occupies_insertFetched (wellFormed : scheduler.requests.WellFormed) {bytes : Bytes}
    {parents : List RequestId} {requests : RequestTable}
    (inserted : scheduler.requests.insertFetched occurrence bytes parents = (id, requests)) :
    ({ scheduler with requests }.awaited (some id)).Occupies occurrence := by
  obtain ⟨pending, live⟩ := @exists_awaited_of_live { scheduler with requests } (some id) id _
    (live?_insertFetched_self wellFormed inserted)
  exact .inl ⟨id, _, live, Request.occurrence_mem_occurrences _⟩

theorem Step.listed (wellFormed : scheduler.requests.WellFormed)
    (step : Step H store scheduler task new after) (h : scheduler.requests.Listed)
    (free : ∀ {node}, node ∈ task.opens H → after.Occupies node →
      Unscheduled H scheduler node ∨ node ∈ task.puts → ∀ id request,
        scheduler.requests.live? id = some request → node.path ∉ request.paths) :
    after.requests.Listed := by
  have free_awaited {node : Occurrence} {parent : Option RequestId} (opens : node ∈ task.opens H)
      (occupies : after.Occupies node)
      (absent : Unscheduled H scheduler node ∨ node ∈ task.puts) {id : RequestId}
      {request : Request} (live : (scheduler.awaited parent).requests.live? id = some request) :
      node.path ∉ request.paths := by
    obtain ⟨pending, old_live⟩ := exists_live_of_awaited live
    have notMem := free opens occupies absent id _ old_live
    exact notMem
  cases step with
  | skipEmpty | skipStaged | skipStored | skipCode => exact h
  | copy | askCode => exact listed_awaited _ h
  | joinHere digest_ne responsible live =>
      refine (listed_awaited _ h).linked live _ fun new_path => ?_
      obtain ⟨pending, old_live⟩ := exists_live_of_awaited live
      obtain ⟨current, current_live, member⟩ := wellFormed.byPath_live responsible
      obtain rfl := Option.some.inj (old_live.symm.trans current_live)
      exact absurd member new_path
  | joinElsewhere unscheduled _ _ live _ digest_eq =>
      refine (listed_awaited _ h).linked live _ fun _ => free_awaited ?_ ?_ (.inl unscheduled)
      · simp [Task.opens, unscheduled.digest_ne]
      · exact occupies_linked live _ digest_eq
  | ask unscheduled =>
      refine listed_ask (wellFormed_awaited wellFormed _) (listed_awaited _ h) _
        (free_awaited ?_ ?_ (.inl unscheduled))
      · simp [Task.opens, unscheduled.digest_ne]
      · exact occupies_ask (wellFormed_awaited wellFormed _) _ _
  | @askAgain node bytes parents =>
      refine listed_ask wellFormed h _ (@free_awaited node none (List.mem_singleton_self _) ?_
        (.inr (List.mem_singleton_self _)))
      exact occupies_ask wellFormed _ _
  | @resolve node bytes parents references id requests decoded inserted =>
      have allocated : requests.Listed := by
        obtain rfl : (scheduler.requests.insertFetched node bytes parents).2 = requests :=
          congrArg Prod.snd inserted
        refine h.allocate wellFormed rfl (@free_awaited node none (List.mem_singleton_self _) ?_
          (.inr (List.mem_singleton_self _)))
        exact occupies_insertFetched wellFormed inserted
      have inserted_listed : ({ scheduler with requests } : Scheduler).requests.Listed := allocated
      exact listed_awaited _ inserted_listed
  | count live => exact h.set live rfl
  | @complete id request bytes live =>
      have set_live := RequestTable.live?_set_self live { request with pending := 0 }
      have counted : (scheduler.requests.set id { request with pending := 0 }).Listed :=
        h.set live rfl
      exact counted.remove set_live _

private theorem Orderly.notMem_paths (h : Orderly H schema known (task :: tasks) scheduler)
    (wellFormed : scheduler.requests.WellFormed) (step : Step H store scheduler task new after)
    (undisputed : after.Undisputed) (occupies : after.Occupies occurrence)
    (opens : occurrence ∈ task.opens H)
    (absent : Unscheduled H scheduler occurrence ∨ occurrence ∈ task.puts)
    (live : scheduler.requests.live? id = some request) : occurrence.path ∉ request.paths := by
  intro path_mem
  have member := Request.mem_occurrences_of_mem_paths path_mem
  have not_release : task ≠ .release id := by
    rintro rfl
    simp [Task.opens] at opens
  obtain ⟨next, next_live, kept⟩ :=
    (step.request_kept wellFormed live).resolve_right fun released => not_release released.1
  have occupied : after.Occupies ⟨occurrence.path, request.occurrence.digest⟩ :=
    .inl ⟨id, next, next_live, kept.occurrences_subset member⟩
  have digest_eq : request.occurrence.digest = occurrence.digest :=
    @undisputed ⟨occurrence.path, request.occurrence.digest⟩ occurrence occupied occupies rfl
  rcases absent with unscheduled | puts
  · exact unscheduled.notScheduled (h.listed.found live path_mem) live digest_eq
  · rw [digest_eq] at member
    exact h.unclaimed (List.mem_flatMap.mpr ⟨task, List.mem_cons_self, puts⟩) live member

private theorem Orderly.listed_step (h : Orderly H schema known (task :: tasks) scheduler)
    (wellFormed : scheduler.requests.WellFormed) (step : Step H store scheduler task new after)
    (undisputed : after.Undisputed) : after.requests.Listed :=
  step.listed wellFormed h.listed fun opens occupies absent _ _ live =>
    h.notMem_paths wellFormed step undisputed occupies opens absent live

private theorem Orderly.avoids_step (h : Orderly H schema known (task :: tasks) scheduler)
    (step : Step H store scheduler task new after) {next : Task} (member : next ∈ new)
    (avoids : Avoids H schema known task occurrence) : Avoids H schema known next occurrence := by
  intro upper opens lower leads
  cases step with
  | @copy parent node bytes unscheduled =>
      obtain rfl := List.mem_singleton.mp member
      exact avoids upper (by simpa [Task.opens, unscheduled.digest_ne] using opens) lower leads
  | @resolve node bytes parents references id requests decoded inserted =>
      have opens_mem : upper ∈ (references.tasks id node.path).flatMap (Task.opens H) :=
        List.mem_flatMap.mpr ⟨next, member, opens⟩
      rw [flatMap_opens_tasks] at opens_mem
      obtain ⟨node_mem, digest_ne⟩ := List.mem_filter.mp opens_mem
      have leads_on : Leads H schema known node upper :=
        ⟨bytes, references, h.holds.placed List.mem_cons_self, h.holds.schema_eq ▸ decoded, node_mem,
          by simpa using digest_ne⟩
      exact avoids node (List.mem_singleton_self _) lower (.head leads_on leads)
  | complete =>
      obtain ⟨parent, -, rfl⟩ := List.mem_map.mp member
      simp [Task.opens] at opens
  | _ => simp at member

private theorem Step.puts_cases (step : Step H store scheduler task new after)
    (member : occurrence ∈ new.flatMap Task.puts) :
    (∃ only, new = [only]) ∧ Unscheduled H scheduler occurrence ∧
      ∃ parent, after = scheduler.awaited parent := by
  cases step with
  | @copy parent node bytes unscheduled =>
      obtain rfl := List.mem_singleton.mp member
      exact ⟨⟨_, rfl⟩, unscheduled, parent, rfl⟩
  | @resolve node bytes parents references id requests decoded inserted =>
      simp [References.tasks, Task.puts, List.flatMap_append, List.flatMap_map] at member
  | complete => simp [Task.puts] at member
  | _ => simp at member

private theorem pairwise_of_puts_eq_nil (puts_eq : tasks.flatMap Task.puts = []) :
    tasks.Pairwise fun earlier later => ∀ occurrence ∈ later.puts,
      Avoids H schema known earlier occurrence := by
  refine List.pairwise_of_forall_mem_list fun earlier _ later later_mem occurrence puts => ?_
  have puts_mem : occurrence ∈ tasks.flatMap Task.puts :=
    List.mem_flatMap.mpr ⟨later, later_mem, puts⟩
  simp [puts_eq] at puts_mem

theorem Orderly.step (h : Orderly H schema known (task :: tasks) scheduler)
    (coherent : Coherent (task :: tasks) scheduler) (step : Step H store scheduler task new after)
    (undisputed : after.Undisputed) : Orderly H schema known (new ++ tasks) after := by
  have wellFormed := coherent.counted.wellFormed
  obtain ⟨head_apart, rest_apart⟩ := List.pairwise_cons.mp h.apart
  refine ⟨h.holds.step coherent step, h.listed_step wellFormed step undisputed, ?_, ?_⟩
  · intro occurrence puts id request live member
    rw [List.flatMap_append] at puts
    rcases List.mem_append.mp puts with puts | puts
    · obtain ⟨-, unscheduled, parent, rfl⟩ := step.puts_cases puts
      obtain ⟨pending, old_live⟩ := exists_live_of_awaited live
      have found := h.listed.found old_live (Request.path_mem_paths member)
      exact unscheduled.notScheduled found old_live (Request.digest_of_mem_occurrences member).symm
    · have not_opened : occurrence ∉ task.opens H := by
        intro opens
        obtain ⟨later, later_mem, puts⟩ := List.mem_flatMap.mp puts
        exact head_apart later later_mem occurrence puts occurrence opens occurrence .refl rfl
      rcases step.live_cases wellFormed live with ⟨old, old_live, kept⟩ | ⟨-, fresh⟩
      · have old_mem := (kept.occurrences occurrence member).resolve_right not_opened
        exact h.unclaimed (List.mem_append_right _ puts) old_live old_mem
      · rw [fresh.occurrences_eq] at member
        exact not_opened (List.mem_singleton.mp member ▸ fresh.opens)
  · refine List.pairwise_append.mpr ⟨?_, rest_apart, ?_⟩
    · cases puts_eq : new.flatMap Task.puts with
      | nil => exact pairwise_of_puts_eq_nil puts_eq
      | cons occurrence others =>
          obtain ⟨⟨only, rfl⟩, -⟩ := step.puts_cases (puts_eq ▸ List.mem_cons_self)
          exact List.pairwise_singleton _ _
    · intro next next_mem later later_mem occurrence puts
      exact h.avoids_step step next_mem (head_apart later later_mem occurrence puts)

private theorem apart_of_processNode (acyclic : Acyclic H schema known) {bytes : Bytes}
    {references : References} (bytes_known : known request.occurrence.digest bytes)
    (decoded : schema.references H request.occurrence.path bytes = .ok references)
    (paths_nodup : request.paths.Nodup) :
    (references.tasks id request.occurrence.path ++ request.copies bytes).Pairwise
      fun earlier later => ∀ occurrence ∈ later.puts, Avoids H schema known earlier occurrence := by
  have copies_nodup := (List.nodup_cons.mp paths_nodup).2
  refine List.pairwise_append.mpr ⟨pairwise_of_puts_eq_nil ?_, ?_, ?_⟩
  · simp [References.tasks, Task.puts, List.flatMap_append, List.flatMap_map]
  · refine List.pairwise_map.mpr ((List.pairwise_map.mp copies_nodup).imp ?_)
    rintro first second path_ne occurrence puts upper opens lower leads rfl
    obtain rfl := List.mem_singleton.mp puts
    obtain rfl := List.mem_singleton.mp opens
    rcases ReflTransGen.cases_head_iff.mp leads with same | ⟨next, leads_on, leads⟩
    · exact path_ne (congrArg Occurrence.path same)
    · exact acyclic (.head' leads_on leads) rfl
  · intro earlier earlier_mem later later_mem occurrence puts upper opens lower leads
    obtain ⟨other, -, rfl⟩ := List.mem_map.mp later_mem
    obtain rfl := List.mem_singleton.mp puts
    rintro rfl
    have opens_mem : upper ∈ (references.tasks id request.occurrence.path).flatMap (Task.opens H) :=
      List.mem_flatMap.mpr ⟨earlier, earlier_mem, opens⟩
    rw [flatMap_opens_tasks] at opens_mem
    obtain ⟨node_mem, digest_ne⟩ := List.mem_filter.mp opens_mem
    have leads_on : Leads H schema known request.occurrence upper :=
      ⟨bytes, references, bytes_known, decoded, node_mem, by simpa using digest_ne⟩
    exact acyclic (.head' leads_on leads) rfl

private theorem unclaimed_of_processNode (listed : scheduler.requests.Listed) {bytes : Bytes}
    (live : scheduler.requests.live? id = some request) {references : References}
    (puts : occurrence ∈ (references.tasks id request.occurrence.path ++
      request.copies bytes).flatMap Task.puts) {other : RequestId} {current : Request}
    (current_live : ((scheduler.received id request bytes).awaited (some id)).requests.live? other =
      some current) : occurrence ∉ current.occurrences := by
  intro member
  have alias_mem : occurrence.path ∈ request.aliases.map Alias.path := by
    simp only [References.tasks, List.flatMap_append, List.flatMap_map, Task.puts, Request.copies,
      List.mem_append, List.mem_flatMap, List.mem_singleton, List.not_mem_nil, and_false,
      exists_false, false_or, List.flatMap_cons, List.flatMap_nil] at puts
    obtain ⟨place, place_mem, rfl⟩ := puts
    exact List.mem_map_of_mem place_mem
  have own := (List.nodup_cons.mp (listed.nodup live)).1
  rcases received_cases live current_live with ⟨-, rfl⟩ | ⟨other_ne, old_live⟩
  · obtain rfl := List.mem_singleton.mp member
    exact own alias_mem
  · have found := listed.found old_live (Request.path_mem_paths member)
    have own_found := listed.found live (List.mem_cons_of_mem _ alias_mem)
    exact other_ne (Option.some.inj (own_found.symm.trans found))

theorem Orderly.of_turn (holds : Holds schema known [] scheduler)
    (listed : scheduler.requests.Listed) (acyclic : Acyclic H schema known)
    (delivered : ∀ {path bytes}, call = .processNode path bytes → known (H bytes) bytes)
    (turn : Turn H scheduler call tasks start) : Orderly H schema known tasks start := by
  have start_holds := holds.turn turn delivered
  cases turn with
  | addSubTrie | addCode =>
      exact ⟨start_holds, listed, by simp [Task.puts], List.pairwise_singleton _ _⟩
  | missing =>
      exact ⟨start_holds, listed.of_live rfl fun live => ⟨_, live, rfl⟩, by simp, .nil⟩
  | processCode =>
      exact ⟨start_holds, listed, by simp [Task.puts],
        pairwise_of_puts_eq_nil (by simp [Task.puts])⟩
  | @processNode path bytes id request references responsible inFlight live path_eq digest_eq
      decoded =>
      subst path_eq
      have bytes_known : known request.occurrence.digest bytes := digest_eq ▸ delivered rfl
      have received_listed : (scheduler.received id request bytes).requests.Listed :=
        listed.answered live bytes
      refine ⟨start_holds, listed_awaited _ received_listed,
        fun puts _ _ current_live => unclaimed_of_processNode listed live puts current_live, ?_⟩
      exact apart_of_processNode acyclic bytes_known (holds.schema_eq ▸ decoded) (listed.nodup live)

theorem Orderly.works (h : Orderly H schema known tasks scheduler)
    (coherent : Coherent tasks scheduler) (peaceful : Peaceful H store tasks scheduler after) :
    Coherent [] after ∧ Orderly H schema known [] after ∧ after.Undisputed := by
  induction peaceful with
  | done undisputed => exact ⟨coherent, h, undisputed⟩
  | step undisputed step rest ih =>
      exact ih (h.step coherent step rest.undisputed) (coherent.step step)

end orderly

theorem Addressed.undisputed {past : List Occurrence} (h : Addressed H tasks scheduler past)
    (coherent : Coherent tasks scheduler) : scheduler.Undisputed := by
  have claims {node : Occurrence} (occupies : scheduler.Occupies node) : Claims H scheduler node := by
    rcases occupies with ⟨id, request, live, member⟩ | staged
    · exact .request live member
    · obtain ⟨bytes, found⟩ := Staging.digestAt?_eq_some_iff.mp staged
      exact .staged found
  intro left right left_occupies right_occupies path_eq
  exact congrArg Occurrence.digest
    (h.unambiguous coherent (claims left_occupies) (claims right_occupies) path_eq)

theorem Addressed.peaceful {past : List Occurrence} (h : Addressed H tasks scheduler past)
    (coherent : Coherent tasks scheduler) (works : Works H store tasks scheduler after) :
    Peaceful H store tasks scheduler after := by
  induction works generalizing past with
  | done => exact .done (h.undisputed coherent)
  | step step works ih =>
      obtain ⟨skipped, next_addressed⟩ := h.step coherent step
      exact .step (h.undisputed coherent) step (ih next_addressed (coherent.step step))

namespace ReachedPeacefully

theorem reached (h : ReachedPeacefully H schema scheduler) : Reached H schema scheduler := by
  induction h with
  | start started => exact .start started
  | call _ _ performed _ _ ih => exact .call ih ((performThrough_placement _ _ _ _).trans performed)
  | commit _ batch store ih => exact .commit ih batch store

theorem listed_and_undisputed (h : ReachedPeacefully H schema scheduler) :
    scheduler.requests.Listed ∧ scheduler.Undisputed := by
  induction h with
  | @start store root scheduler started =>
      have coherent := coherent_node (coherent_idle schema) ⟨.root, root⟩
      have listed : (idle schema).requests.Listed :=
        ⟨by simp [idle, RequestTable.live?, RequestTable.empty],
          by simp [idle, RequestTable.live?, RequestTable.empty]⟩
      have orderly : Orderly H schema (fun _ _ => True) [.node none ⟨.root, root⟩] (idle schema) :=
        ⟨⟨rfl, fun _ => trivial, fun _ => trivial⟩, listed, by simp [Task.puts],
          List.pairwise_singleton _ _⟩
      have peaceful := (Addressed.ofRoot H schema root).peaceful coherent (works_of_ofRoot started)
      obtain ⟨-, after_orderly, undisputed⟩ := orderly.works coherent peaceful
      exact ⟨after_orderly.listed, undisputed⟩
  | @call store call tasks scheduler start after reached acyclic performed turn peaceful ih =>
      have coherent := reached.reached.coherent
      have holds : Holds schema (scheduler.KnownTo H call) [] scheduler :=
        ⟨reached.reached.schema_eq, .inl, by simp⟩
      have orderly : Orderly H schema (scheduler.KnownTo H call) tasks start :=
        .of_turn holds ih.1 acyclic (fun {path bytes} call_eq => .inr ⟨path, call_eq, rfl⟩) turn
      obtain ⟨-, after_orderly, undisputed⟩ := orderly.works (coherent.turn turn) peaceful
      exact ⟨after_orderly.listed, undisputed⟩
  | @commit scheduler reached batch store ih =>
      rcases commit_cases scheduler batch store with commit_eq | commit_eq
      · rwa [commit_eq]
      · rw [commit_eq]
        refine ⟨ih.1, fun {left right} left_occupies right_occupies => ?_⟩
        have still {node : Occurrence}
            (occupies : Occupies { scheduler with staging := .empty } node) :
            scheduler.Occupies node := by
          rcases occupies with live | staged
          · exact .inl live
          · simp at staged
        exact ih.2 (still left_occupies) (still right_occupies)

theorem inPlace (h : ReachedPeacefully H schema scheduler) (occupies : scheduler.Occupies occurrence) :
    scheduler.InPlace occurrence := by
  obtain ⟨listed, undisputed⟩ := h.listed_and_undisputed
  have wellFormed := h.reached.coherent.counted.wellFormed
  have agrees (digest : Digest)
      (staged : scheduler.staging.digestAt? occurrence.path = some digest) :
      digest = occurrence.digest :=
    @undisputed ⟨occurrence.path, digest⟩ occurrence (.inr staged) occupies rfl
  rcases occupies with ⟨id, request, live, member⟩ | staged
  · exact .scheduled (listed.found live (Request.path_mem_paths member)) live
      (Request.digest_of_mem_occurrences member).symm agrees
  · cases responsible : scheduler.requests.byPath[occurrence.path]? with
    | none => exact .staged responsible staged
    | some id =>
        obtain ⟨request, live, path_mem⟩ := wellFormed.byPath_live responsible
        have occupied : scheduler.Occupies ⟨occurrence.path, request.occurrence.digest⟩ :=
          .inl ⟨id, request, live, Request.mem_occurrences_of_mem_paths path_mem⟩
        exact .scheduled responsible live
          (@undisputed ⟨occurrence.path, request.occurrence.digest⟩ occurrence occupied (.inr staged)
            rfl) agrees

/-- No place is disputed in the life of a scheduler that adds no trie, as long as no node is its own
descendant. -/
theorem of_life {root : Digest} {deeds : List Deed} {said : List Message}
    (acyclic : Acyclic H schema known)
    (delivered : ∀ {store path bytes}, .call store (.processNode path bytes) ∈ deeds →
      known (H bytes) bytes)
    (no_trie : ∀ store occurrence, .call store (.addSubTrie occurrence) ∉ deeds)
    (lived : life H store schema root deeds = .ok (scheduler, said)) :
    ReachedPeacefully H schema scheduler := by
  unfold life at lived
  obtain ⟨first, started, lived⟩ := bind_eq_ok.mp lived
  have coherent := coherent_node (coherent_idle schema) ⟨.root, root⟩
  have works := works_of_ofRoot started
  have holds : Holds schema known [.node none ⟨.root, root⟩] (idle schema) :=
    ⟨rfl, (holds_idle schema known).knows, by simp⟩
  refine (recorded_keeps (P := fun scheduler _ => ReachedPeacefully H schema scheduler ∧
    Holds schema known [] scheduler ∧ ∃ past, Addressed H [] scheduler past) ?_
      ⟨.start started, holds.works coherent works, ?_⟩ lived).1
  · rintro scheduler said deed after member - ⟨peacefully, holds, past, addressed⟩ acted
    have coherent := peacefully.reached.coherent
    obtain ⟨store, call, rfl, performed⟩ | ⟨store, call, rejection, rfl, refused, rfl⟩ |
      ⟨store, batch, rfl, rfl⟩ := act_cases acted
    · obtain ⟨tasks, start, turn, start_coherent, works⟩ := works_of_perform coherent performed
      have call_delivered {path bytes} (call_eq : call = .processNode path bytes) :
          known (H bytes) bytes :=
        delivered (call_eq ▸ member)
      have call_acyclic : Acyclic H schema (scheduler.KnownTo H call) := by
        refine acyclic.mono ?_
        rintro digest bytes (knows | ⟨path, call_eq, rfl⟩)
        · exact holds.knows knows
        · exact call_delivered call_eq
      obtain ⟨skipped, start_addressed⟩ := addressed.turn coherent
        (fun occurrence call_eq => no_trie store occurrence (call_eq ▸ member)) turn
      have peaceful := start_addressed.peaceful start_coherent works
      exact ⟨.call peacefully call_acyclic performed turn peaceful,
        (holds.turn turn call_delivered).works start_coherent works,
        _, (start_addressed.works start_coherent works).choose_spec⟩
    · exact ⟨peacefully, holds, past, addressed⟩
    · refine ⟨.commit peacefully batch store, ?_⟩
      rcases commit_cases scheduler batch store with commit_eq | commit_eq
      · rw [commit_eq]
        exact ⟨holds, past, addressed⟩
      · rw [commit_eq]
        exact ⟨holds.commit, _, addressed.commit⟩
  · obtain ⟨skipped, addressed⟩ := (Addressed.ofRoot H schema root).works coherent works
    exact ⟨_, addressed⟩

end ReachedPeacefully

/-- In every state, what was just added may be added again without effect. If no place was disputed
so far, the same is true of whatever occupies a place, and another node is refused there. -/
theorem added_once (H : Hash) (schema : Schema) :
    (∀ {scheduler}, Reached H schema scheduler → ∀ store,
      (∀ occurrence after, scheduler.addSubTrie H store occurrence = .ok after →
        after.addSubTrie H store occurrence = .ok after) ∧
      ∀ digest path, ∃ after, scheduler.addCode store digest path = .ok after ∧
        after.addCode store digest path = .ok after) ∧
    ∀ {scheduler}, ReachedPeacefully H schema scheduler → ∀ store occurrence,
      scheduler.Occupies occurrence →
        scheduler.addSubTrie H store occurrence = .ok scheduler ∧
        ∀ digest, digest ≠ occurrence.digest →
          scheduler.addSubTrie H store ⟨occurrence.path, digest⟩ =
            .error (.rejected (.pathConflict occurrence.path)) ∧
          scheduler.act H (.call store (.addSubTrie ⟨occurrence.path, digest⟩)) = .ok scheduler := by
  constructor
  · intro scheduler reached store
    exact ⟨fun occurrence after added => addSubTrie_again reached.coherent added,
      addCode_again scheduler store⟩
  · intro scheduler peacefully store occurrence occupies
    have inPlace := peacefully.inPlace occupies
    refine ⟨inPlace.addSubTrie_eq peacefully.reached.coherent.counted.wellFormed H store, ?_⟩
    intro digest digest_ne
    have refused : scheduler.addSubTrie H store ⟨occurrence.path, digest⟩ =
        .error (.rejected (.pathConflict occurrence.path)) :=
      inPlace.addSubTrie_conflict H store rfl digest_ne
    refine ⟨refused, ?_⟩
    simp only [act, perform, refused]

namespace TwinLeaves

/-- The leaf is asked for at one place of the branch, and waited for at the other one. It is in place
there, and the branch may be put below itself once, but not twice. -/
theorem added_once_twinLeaves :
    let waiting : Occurrence := ⟨⟨.root, [2]⟩, Hash.sha256 leaf⟩
    let copied : Occurrence := ⟨⟨.root, [7]⟩, Hash.sha256 branch⟩
    let store : Store := .empty .byPath
    ∃ scheduler, ReachedPeacefully Hash.sha256 .plain scheduler ∧ scheduler.Occupies waiting ∧
      scheduler.addSubTrie Hash.sha256 store waiting = .ok scheduler ∧
      scheduler.addSubTrie Hash.sha256 store ⟨waiting.path, Hash.sha256 branch⟩ =
        .error (.rejected (.pathConflict waiting.path)) ∧
      ∃ after, scheduler.addSubTrie Hash.sha256 store copied = .ok after ∧
        after.pending = scheduler.pending + 1 ∧
        after.addSubTrie Hash.sha256 store copied = .ok after := by
  intro waiting copied store
  have ran : (life Hash.sha256 store .plain (Hash.sha256 branch) deeds).map (fun result =>
      (result.1.requests.requests.any fun request => waiting ∈ request.occurrences,
        (result.1.addSubTrie Hash.sha256 store copied).map
          fun after => decide (after.pending = result.1.pending + 1))) =
        .ok (true, .ok true) := by
    decide +kernel
  obtain ⟨⟨scheduler, said⟩, lived, facts⟩ := map_eq_ok.mp ran
  obtain ⟨waits, added⟩ := Prod.mk.inj facts
  obtain ⟨after, added, pending_eq⟩ := map_eq_ok.mp added
  have acyclic : Acyclic Hash.sha256 .plain Delivered :=
    acyclic_of_wellFounded (wellFounded_mentions fun _ _ delivered => .inl delivered)
  have peacefully : ReachedPeacefully Hash.sha256 .plain scheduler :=
    .of_life acyclic delivered_of_mem (by simp [deeds]) lived
  have occupies : scheduler.Occupies waiting := by
    obtain ⟨request, request_mem, member⟩ := List.any_eq_true.mp waits
    obtain ⟨id, live⟩ := RequestTable.mem_requests_iff.mp request_mem
    exact .inl ⟨id, request, live, of_decide_eq_true member⟩
  obtain ⟨unchanged, refused⟩ := (added_once Hash.sha256 .plain).2 peacefully store waiting occupies
  have again := ((added_once Hash.sha256 .plain).1 peacefully.reached store).1 copied after added
  exact ⟨scheduler, peacefully, occupies, unchanged, (refused _ digest_leaf_ne.symm).1, after, added,
    of_decide_eq_true pending_eq, again⟩

end TwinLeaves

end Scheduler

end TrieSync
