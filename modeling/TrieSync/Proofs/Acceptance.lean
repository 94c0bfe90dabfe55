import TrieSync.Proofs.Outstanding

namespace TrieSync

namespace RequestTable

variable {table after : RequestTable} {id : RequestId} {request : Request}

/-- Every live request is responsible for its own place. -/
def Indexed (table : RequestTable) : Prop :=
  ∀ id request, table.live? id = some request →
    table.byPath[request.occurrence.path]? = some id

namespace Indexed

theorem of_live (h : table.Indexed) (byPath_eq : after.byPath = table.byPath)
    (was_live : ∀ {id next}, after.live? id = some next →
      ∃ request, table.live? id = some request ∧ next.occurrence = request.occurrence) :
    after.Indexed := by
  intro id next live
  obtain ⟨request, old_live, occurrence_eq⟩ := was_live live
  rw [byPath_eq, occurrence_eq]
  exact h id request old_live

theorem set (h : table.Indexed) (live : table.live? id = some request) {next : Request}
    (occurrence_eq : next.occurrence = request.occurrence) : (table.set id next).Indexed := by
  refine h.of_live rfl fun {other current} current_live => ?_
  rw [live?_set_of_live live] at current_live
  split at current_live
  · rename_i same
    subst same
    obtain rfl := Option.some.inj current_live
    exact ⟨request, live, occurrence_eq⟩
  · exact ⟨current, current_live, rfl⟩

theorem insertPath (h : table.Indexed) {path : Path} (id : RequestId)
    (free : ∀ {other current}, table.live? other = some current →
      current.occurrence.path ≠ path) :
    Indexed { table with byPath := table.byPath.insert path id } := by
  intro other current live
  show (table.byPath.insert path id)[current.occurrence.path]? = some other
  rw [Entries.getElem?_insert, if_neg (Ne.symm (free live))]
  exact h other current live

theorem allocate (h : table.Indexed) (wellFormed : table.WellFormed)
    (free : ∀ {other current}, table.live? other = some current →
      current.occurrence.path ≠ request.occurrence.path) : (table.allocate request).2.Indexed := by
  intro other current live
  rw [live?_allocate wellFormed] at live
  rw [byPath_allocate, Entries.getElem?_insert]
  split at live
  · rename_i same
    obtain rfl := Option.some.inj live
    rw [if_pos rfl, same]
  · rw [if_neg (Ne.symm (free live))]
    exact h other current live

theorem linked (h : table.Indexed) (live : table.live? id = some request) {path : Path}
    (parent : Option RequestId)
    (free : path ∉ request.paths → ∀ {other current}, table.live? other = some current →
      current.occurrence.path ≠ path) : (table.linked id request path parent).Indexed := by
  have set_indexed := h.set live (Request.occurrence_link request path parent)
  unfold RequestTable.linked
  split
  · exact set_indexed
  · rename_i new_path
    refine set_indexed.insertPath id fun {other current} current_live => ?_
    rw [live?_set_of_live live] at current_live
    split at current_live
    · obtain rfl := Option.some.inj current_live
      rw [Request.occurrence_link]
      exact free new_path live
    · exact free new_path current_live

/-- Only entries of one request are dropped, and not that of its own place if it stays. -/
theorem unlink (h : table.Indexed) {paths : List Path}
    (kept : ∀ {request}, table.live? id = some request → request.occurrence.path ∉ paths) :
    (table.unlink id paths).Indexed := by
  intro other current live
  rw [byPath_unlink, if_neg ?_]
  · exact h other current live
  · rintro ⟨member, found⟩
    obtain rfl := Option.some.inj (found.symm.trans (h other current live))
    exact kept live member

theorem answered (h : table.Indexed) (live : table.live? id = some request) (bytes : Bytes)
    (own_place : request.occurrence.path ∉ request.aliases.map Alias.path) :
    (table.answered id request bytes).Indexed := by
  have received : (table.set id { request with bytes := some bytes, aliases := [] }).Indexed :=
    h.set live rfl
  have unlinked : ((table.set id { request with bytes := some bytes, aliases := [] }).unlink id
      (request.aliases.map Alias.path)).Indexed := by
    refine received.unlink fun {current} current_live => ?_
    rw [live?_set_of_live live, if_pos rfl] at current_live
    obtain rfl := Option.some.inj current_live
    exact own_place
  exact unlinked.of_live rfl fun current_live => ⟨_, current_live, rfl⟩

theorem remove (h : table.Indexed) (live : table.live? id = some request) (next : Request) :
    (table.remove id next).Indexed := by
  intro other current current_live
  rw [live?_remove live] at current_live
  split at current_live
  · simp at current_live
  · rename_i other_ne
    have found := h other current current_live
    show (table.unlink id next.paths).byPath[current.occurrence.path]? = some other
    rw [byPath_unlink, if_neg fun dropped => other_ne ?_, found]
    exact Option.some.inj (dropped.2.symm.trans found)

end Indexed

theorem Indexed.inFlightAt?_eq (h : table.Indexed) (inFlight : id ∈ table.inFlight)
    (live : table.live? id = some request) :
    table.inFlightAt? request.occurrence.path = .ok (some (id, request)) := by
  have contains : table.inFlight.contains id = true := Std.TreeSet.contains_iff_mem.mpr inFlight
  simp [inFlightAt?, h id request live, contains, get_eq_ok_iff.mpr live, bind, Except.bind, pure,
    Except.pure]

end RequestTable

namespace Scheduler

variable {H : Hash} {store : Store} {task : Task} {tasks new : List Task}
  {scheduler after start : Scheduler} {past : List Occurrence} {call : Call}
  {occurrence : Occurrence}

private theorem indexed_awaited {scheduler : Scheduler} (parent : Option RequestId)
    (h : scheduler.requests.Indexed) : (scheduler.awaited parent).requests.Indexed := by
  refine h.of_live (byPath_awaited scheduler parent) fun live => ?_
  obtain ⟨pending, old_live⟩ := exists_live_of_awaited live
  exact ⟨_, old_live, rfl⟩

theorem Addressed.indexed_step (addressed : Addressed H (task :: tasks) scheduler past)
    (wellFormed : scheduler.requests.WellFormed) (step : Step H store scheduler task new after)
    (h : scheduler.requests.Indexed) : after.requests.Indexed := by
  have free {parent : Option RequestId} {occurrence : Occurrence}
      (opens : task.opens H = [occurrence]) {id : RequestId} {request : Request}
      (live : (scheduler.awaited parent).requests.live? id = some request) :
      request.occurrence.path ≠ occurrence.path := by
    obtain ⟨pending, old_live⟩ := exists_live_of_awaited live
    exact fun same => addressed.notMem_paths wellFormed opens old_live (same ▸ List.mem_cons_self)
  cases step with
  | skipEmpty | skipStaged | skipStored | skipCode => exact h
  | copy | askCode => exact indexed_awaited _ h
  | joinHere digest_ne responsible live =>
      exact (indexed_awaited _ h).linked live _ fun _ => free (if_neg digest_ne)
  | joinElsewhere unscheduled notStaged unknown live =>
      exact (indexed_awaited _ h).linked live _ fun _ => free (if_neg unscheduled.digest_ne)
  | ask unscheduled =>
      exact (indexed_awaited _ h).allocate (wellFormed_awaited wellFormed _)
        (free (if_neg unscheduled.digest_ne))
  | askAgain => exact h.allocate wellFormed (@free none _ rfl)
  | @resolve occurrence bytes parents references id requests decoded inserted =>
      have allocated : requests.Indexed := by
        obtain rfl : (scheduler.requests.insertFetched occurrence bytes parents).2 = requests :=
          congrArg Prod.snd inserted
        exact h.allocate wellFormed (@free none _ rfl)
      have inserted_indexed : ({ scheduler with requests } : Scheduler).requests.Indexed :=
        allocated
      exact indexed_awaited _ inserted_indexed
  | count live => exact h.set live rfl
  | @complete id request bytes live =>
      have set_live := RequestTable.live?_set_self live { request with pending := 0 }
      have counted : (scheduler.requests.set id { request with pending := 0 }).Indexed :=
        h.set live rfl
      exact counted.remove set_live _

theorem Addressed.indexed_works (addressed : Addressed H tasks scheduler past)
    (coherent : Coherent tasks scheduler) (works : Works H store tasks scheduler after)
    (h : scheduler.requests.Indexed) : after.requests.Indexed := by
  refine (works.keeps (fun tasks scheduler => (∃ past, Addressed H tasks scheduler past) ∧
    scheduler.requests.Indexed) ?_ coherent ⟨⟨_, addressed⟩, h⟩).2.2
  rintro _ _ _ _ _ coherent ⟨⟨past, addressed⟩, h⟩ step
  obtain ⟨skipped, after_addressed⟩ := addressed.step coherent step
  exact ⟨⟨_, after_addressed⟩, addressed.indexed_step coherent.counted.wellFormed step h⟩

theorem Addressed.indexed_turn (addressed : Addressed H [] scheduler past)
    (wellFormed : scheduler.requests.WellFormed) (turn : Turn H scheduler call tasks start)
    (h : scheduler.requests.Indexed) : start.requests.Indexed := by
  cases turn with
  | addSubTrie | addCode | processCode => exact h
  | missing => exact h.of_live rfl fun live => ⟨_, live, rfl⟩
  | @processNode path bytes id request references responsible inFlight live =>
      have occupied_nodup := (addressed.nodup_occupied wellFormed).of_append_left
      have paths_nodup : request.paths.Nodup :=
        (List.nodup_flatMap.mp occupied_nodup).1 _ (RequestTable.mem_requests_iff.mpr ⟨id, live⟩)
      have received : (scheduler.received id request bytes).requests.Indexed :=
        h.answered live bytes (List.nodup_cons.mp paths_nodup).1
      exact indexed_awaited _ received

theorem perform_ne_rejected (indexed : scheduler.requests.Indexed)
    (inFlight : scheduler.InFlight occurrence) {bytes : Bytes}
    (digest_eq : H bytes = occurrence.digest) {references : References}
    (decoded : scheduler.schema.references H occurrence.path bytes = .ok references)
    (rejection : Rejection) :
    scheduler.perform H store (.processNode occurrence.path bytes) ≠
      .error (.rejected rejection) := by
  obtain ⟨id, request, inFlight, live, rfl⟩ := inFlight
  simp only [perform, processNode, indexed.inFlightAt?_eq inFlight live, Except.mapError, bind,
    Except.bind, digest_eq, if_true, decoded]
  split <;> simp

theorem exists_processCode (coherent : Coherent [] scheduler) {digest : Digest}
    (inFlight : digest ∈ scheduler.codes.inFlight) {bytes : Bytes} (digest_eq : H bytes = digest) :
    ∃ after, scheduler.processCode H digest bytes = .ok after := by
  have contains : scheduler.codes.inFlight.contains digest = true :=
    Std.TreeSet.contains_iff_mem.mpr inFlight
  -- Code is taken without a look at the store.
  rcases perform_cases H (.empty .byDigest) coherent (.processCode digest bytes) with
    ⟨rejection, refused⟩ | ⟨tasks, start, outcome, turn, outcome_cases, perform_eq⟩
  · simp only [perform, processCode, contains, digest_eq, if_true, Except.mapError] at refused
    split at refused <;> simp at refused
  · rcases outcome_cases with ⟨after, rfl, -⟩ | ⟨_, -, upper, upper_mem, -⟩
    · exact ⟨after, perform_eq⟩
    · cases turn
      simp [Task.opens] at upper_mem

end Scheduler

namespace Session

open Scheduler

variable {H : Hash} {session next : Session} {action : Action} {past : List Occurrence}

theorem Step.indexed (step : Step H session action next)
    (coherent : Coherent [] session.scheduler) (addressed : Addressed H [] session.scheduler past)
    (no_trie : ∀ occurrence, action ≠ .call (.addSubTrie occurrence))
    (h : session.scheduler.requests.Indexed) : next.scheduler.requests.Indexed := by
  cases step with
  | refuse | commitNothing | commitRefused | commit | rejectWrites => exact h
  | perform turn begun_coherent works =>
      have begun_indexed := addressed.indexed_turn coherent.counted.wellFormed turn h
      obtain ⟨skipped, begun_addressed⟩ := addressed.turn coherent
        (fun occurrence same => no_trie occurrence (congrArg Action.call same)) turn
      exact begun_addressed.indexed_works begun_coherent works begun_indexed

theorem indexed_ofRoot {store : Store} {schema : Schema} {root : Digest}
    (started : ofRoot H store schema root = .ok session) :
    session.scheduler.requests.Indexed := by
  obtain ⟨scheduler, scheduler_eq, same⟩ := bind_eq_ok.mp started
  obtain rfl := Except.ok.inj same
  refine (Addressed.ofRoot H schema root).indexed_works (coherent_node (coherent_idle schema) _)
    (works_of_ofRoot scheduler_eq) fun id request live => ?_
  simp [idle, RequestTable.live?, RequestTable.empty] at live

end Session

end TrieSync
