import TrieSync.Proofs.RequestTable
import TrieSync.Proofs.Staging
import TrieSync.Sync.Scheduler

/-!
Every request counts the references that it waits for: it is mentioned once for each of them, by
the request or the code that it waits for.
-/

namespace TrieSync

namespace CodeTable

/-- The requests that wait for code, each once for every reference that it makes. -/
def waiters (table : CodeTable) : List RequestId :=
  table.requests.toList.flatMap fun entry => entry.2.parents

theorem waiters_insert_perm (table : CodeTable) (digest : Digest) (path : Path)
    (parent : Option RequestId) :
    (table.insert digest path parent).waiters.Perm (parent.toList ++ table.waiters) := by
  unfold insert waiters
  split
  · rename_i request found
    refine ((Entries.insert_perm_cons_erase _ _ _).flatMap_right _).trans ?_
    refine .trans ?_ (((Entries.perm_cons_erase found).flatMap_right _).symm.append_left _)
    simp only [List.flatMap_cons, List.append_assoc]
    exact List.perm_append_comm_assoc _ _ _
  · rename_i absent
    exact (Entries.toList_insert_perm _ absent).flatMap_right _

theorem waiters_remove_perm (table : CodeTable) (digest : Digest) :
    table.waiters.Perm ((table.remove digest).1 ++ (table.remove digest).2.waiters) := by
  unfold remove waiters
  dsimp only
  split
  · simp
  · rename_i request found
    exact (Entries.perm_cons_erase found).flatMap_right _

end CodeTable

namespace RequestTable

variable {table : RequestTable} {id : RequestId} {request : Request}

theorem waiters_set_perm (live : table.live? id = some request) {next : Request}
    (more : List RequestId) (perm : next.waiters.Perm (more ++ request.waiters)) :
    (table.set id next).waiters.Perm (more ++ table.waiters) := by
  obtain ⟨rest, requests_perm, set_perm, -⟩ := exists_flatMap_perm live Request.waiters
  refine (set_perm next).trans ((perm.append_right _).trans ?_)
  rw [List.append_assoc]
  exact requests_perm.symm.append_left _

theorem waiters_setPending_perm (live : table.live? id = some request) (pending : Nat) :
    (table.set id { request with pending }).waiters.Perm table.waiters :=
  waiters_set_perm live [] (.refl _)

theorem waiters_allocate_perm (h : table.WellFormed) (request : Request) :
    (table.allocate request).2.waiters.Perm (request.waiters ++ table.waiters) :=
  (requests_allocate_perm h request).flatMap_right _

theorem waiters_remove_perm (live : table.live? id = some request) (next : Request) :
    table.waiters.Perm (request.waiters ++ (table.remove id next).waiters) := by
  obtain ⟨rest, requests_perm, -, remove_eq⟩ := exists_flatMap_perm live Request.waiters
  exact requests_perm.trans (.of_eq (by rw [waiters, remove_eq]))

theorem waiters_answered_perm (live : table.live? id = some request) (bytes : Bytes) :
    table.waiters.Perm
      (request.aliases.flatMap Alias.parents ++ (table.answered id request bytes).waiters) := by
  obtain ⟨rest, requests_perm, set_perm, -⟩ := exists_flatMap_perm live Request.waiters
  refine requests_perm.trans ?_
  refine .trans ?_ ((set_perm _).symm.append_left _)
  simp only [Request.waiters_eq, List.flatMap_nil, List.append_nil]
  rw [← List.append_assoc]
  exact List.perm_append_comm.append_right _

end RequestTable

namespace Scheduler

/-- The requests that wait for others or for code, each once for every reference that it makes. -/
def waiters (scheduler : Scheduler) : List RequestId :=
  scheduler.requests.waiters ++ scheduler.codes.waiters

/-- What each request waits for is counted, where `held` are further references that a call in
progress still has to drop. -/
structure Counted (held : List RequestId) (scheduler : Scheduler) : Prop where
  wellFormed : scheduler.requests.WellFormed
  live_of_mem : ∀ {id}, id ∈ held ++ scheduler.waiters →
    ∃ request, scheduler.requests.live? id = some request
  pending_eq : ∀ {id request}, scheduler.requests.live? id = some request →
    request.pending = (held ++ scheduler.waiters).count id

namespace Counted

variable {held next : List RequestId} {scheduler after : Scheduler} {id : RequestId}
  {request : Request}

theorem mem_of_pending (h : Counted held scheduler)
    (live : scheduler.requests.live? id = some request) :
    id ∈ held ++ scheduler.waiters ↔ 0 < request.pending := by
  rw [h.pending_eq live, List.count_pos_iff]

theorem notMem_of_not_live (h : Counted held scheduler)
    (unused : scheduler.requests.live? id = none) : id ∉ held ++ scheduler.waiters := by
  intro member
  obtain ⟨request, live⟩ := h.live_of_mem member
  simp [unused] at live

/-- References may change hands, requests that wait for nothing may come and go. -/
theorem of_perm (h : Counted held scheduler) (wellFormed : after.requests.WellFormed)
    (perm : (held ++ scheduler.waiters).Perm (next ++ after.waiters))
    (kept : ∀ {id request}, scheduler.requests.live? id = some request → 0 < request.pending →
      ∃ request, after.requests.live? id = some request)
    (same : ∀ {id request}, after.requests.live? id = some request →
      (∃ old, scheduler.requests.live? id = some old ∧ old.pending = request.pending) ∨
        scheduler.requests.live? id = none ∧ request.pending = 0) :
    Counted next after where
  wellFormed := wellFormed
  live_of_mem {id} member := by
    have member := perm.mem_iff.mpr member
    obtain ⟨request, live⟩ := h.live_of_mem member
    exact kept live ((h.mem_of_pending live).mp member)
  pending_eq {id request} live := by
    rw [← perm.count_eq]
    rcases same live with ⟨old, old_live, pending_eq⟩ | ⟨unused, pending_eq⟩
    · rw [← pending_eq, h.pending_eq old_live]
    · rw [pending_eq, eq_comm, List.count_eq_zero]
      exact h.notMem_of_not_live unused

theorem perm (h : Counted held scheduler) (perm : held.Perm next) : Counted next scheduler :=
  h.of_perm h.wellFormed (perm.append_right _) (fun live _ => ⟨_, live⟩)
    (fun live => .inl ⟨_, live, rfl⟩)

private theorem setPending (h : Counted held scheduler)
    (live : scheduler.requests.live? id = some request) {pending : Nat}
    (own : (next ++ scheduler.waiters).count id = pending)
    (others : ∀ other ≠ id, next.count other = held.count other) :
    Counted next
      { scheduler with requests := scheduler.requests.set id { request with pending } } := by
  have perm : (next ++ waiters { scheduler with
      requests := scheduler.requests.set id { request with pending } }).Perm
        (next ++ scheduler.waiters) :=
    ((RequestTable.waiters_setPending_perm live _).append_right _).append_left _
  have count_eq {other : RequestId} (other_ne : other ≠ id) :
      (next ++ scheduler.waiters).count other = (held ++ scheduler.waiters).count other := by
    rw [List.count_append, List.count_append, others other other_ne]
  refine ⟨h.wellFormed.setPending live _, ?_, ?_⟩
  · intro other member
    rw [RequestTable.live?_set_of_live live]
    split
    · exact ⟨_, rfl⟩
    · rename_i other_ne
      refine h.live_of_mem (List.count_pos_iff.mp ?_)
      rw [← count_eq (Ne.symm other_ne)]
      exact List.count_pos_iff.mpr (perm.mem_iff.mp member)
  · intro other current current_live
    rw [perm.count_eq]
    rw [RequestTable.live?_set_of_live live] at current_live
    split at current_live
    · rename_i same
      subst same
      obtain rfl := Option.some.inj current_live
      exact own.symm
    · rename_i other_ne
      rw [count_eq (Ne.symm other_ne), h.pending_eq current_live]

theorem await (h : Counted held scheduler) (live : scheduler.requests.live? id = some request) :
    Counted (id :: held)
      { scheduler with
        requests := scheduler.requests.set id { request with pending := request.pending + 1 } } := by
  refine h.setPending live ?_ fun other other_ne => List.count_cons_of_ne other_ne.symm
  rw [List.cons_append, List.count_cons_self, h.pending_eq live]

theorem drop (h : Counted (id :: held) scheduler) :
    ∃ request pending, scheduler.requests.live? id = some request ∧
      request.pending = pending + 1 ∧
      Counted held
        { scheduler with requests := scheduler.requests.set id { request with pending } } := by
  obtain ⟨request, live⟩ := h.live_of_mem (by simp : id ∈ id :: held ++ scheduler.waiters)
  have pending_eq := h.pending_eq live
  rw [List.cons_append, List.count_cons_self] at pending_eq
  refine ⟨request, _, live, pending_eq, ?_⟩
  exact h.setPending live rfl fun other other_ne => (List.count_cons_of_ne other_ne.symm).symm

theorem link {parent : Option RequestId} (h : Counted (parent.toList ++ held) scheduler)
    (live : scheduler.requests.live? id = some request) {path : Path}
    (own : ∀ {bytes}, request.bytes = some bytes → path = request.occurrence.path) :
    Counted held
      { scheduler with requests := scheduler.requests.linked id request path parent } := by
  refine h.of_perm (h.wellFormed.linked live parent own) ?_ ?_ ?_
  · have waiters_perm : (scheduler.requests.linked id request path parent).waiters.Perm
        (parent.toList ++ scheduler.requests.waiters) := by
      rw [RequestTable.waiters, RequestTable.requests_linked]
      exact RequestTable.waiters_set_perm live _ (Request.waiters_link_perm request path parent)
    refine .trans ?_ ((waiters_perm.symm.append_right _).append_left _)
    rw [List.append_assoc, List.append_assoc]
    exact List.perm_append_comm_assoc _ _ _
  · intro other old old_live _
    rw [RequestTable.live?_linked live]
    split
    · exact ⟨_, rfl⟩
    · exact ⟨_, old_live⟩
  · intro other current current_live
    rw [RequestTable.live?_linked live] at current_live
    split at current_live
    · rename_i same
      subst same
      obtain rfl := Option.some.inj current_live
      exact .inl ⟨request, live, (Request.pending_link request path parent).symm⟩
    · exact .inl ⟨_, current_live, rfl⟩

private theorem of_allocate (h : Counted (request.waiters ++ held) scheduler)
    (pending_eq : request.pending = 0)
    (live_eq : ∀ other, after.requests.live? other =
      (scheduler.requests.allocate request).2.live? other)
    (waiters_eq : after.requests.waiters = (scheduler.requests.allocate request).2.waiters)
    (codes_eq : after.codes = scheduler.codes) (wellFormed : after.requests.WellFormed) :
    Counted held after := by
  have unused := RequestTable.live?_allocate_fst h.wellFormed request
  refine h.of_perm wellFormed ?_ ?_ ?_
  · rw [waiters, waiters, waiters_eq, codes_eq]
    refine .trans ?_ (((RequestTable.waiters_allocate_perm h.wellFormed request).symm.append_right
      _).append_left _)
    rw [List.append_assoc, List.append_assoc]
    exact List.perm_append_comm_assoc _ _ _
  · intro other old old_live _
    rw [live_eq, RequestTable.live?_allocate h.wellFormed]
    split
    · exact ⟨_, rfl⟩
    · exact ⟨_, old_live⟩
  · intro other current current_live
    rw [live_eq, RequestTable.live?_allocate h.wellFormed] at current_live
    split at current_live
    · rename_i same
      subst same
      obtain rfl := Option.some.inj current_live
      exact .inr ⟨unused, pending_eq⟩
    · exact .inl ⟨_, current_live, rfl⟩

theorem ask {parents : List RequestId} (h : Counted (parents ++ held) scheduler)
    (occurrence : Occurrence) : Counted held (scheduler.ask occurrence parents) := by
  have held_waiters : Counted ((Request.waiting occurrence parents none).waiters ++ held)
      scheduler := by
    simpa [Request.waiters_eq, Request.waiting] using h
  exact held_waiters.of_allocate rfl (fun _ => rfl) rfl rfl
    (h.wellFormed.insert occurrence parents)

theorem insertFetched {parents : List RequestId} (h : Counted (parents ++ held) scheduler)
    (occurrence : Occurrence) (bytes : Bytes) :
    Counted held { scheduler with
      requests := (scheduler.requests.insertFetched occurrence bytes parents).2 } := by
  have held_waiters : Counted ((Request.waiting occurrence parents (some bytes)).waiters ++ held)
      scheduler := by
    simpa [Request.waiters_eq, Request.waiting] using h
  exact held_waiters.of_allocate rfl (fun _ => rfl) rfl rfl (h.wellFormed.allocate rfl)

theorem insertCode {parent : Option RequestId} (h : Counted (parent.toList ++ held) scheduler)
    (digest : Digest) (path : Path) :
    Counted held { scheduler with codes := scheduler.codes.insert digest path parent } := by
  refine h.of_perm h.wellFormed ?_ (fun live _ => ⟨_, live⟩) (fun live => .inl ⟨_, live, rfl⟩)
  refine .trans ?_ (((CodeTable.waiters_insert_perm _ digest path parent).symm.append_left
    scheduler.requests.waiters).append_left held)
  rw [waiters]
  refine (List.perm_append_comm.append_right _).trans ?_
  rw [List.append_assoc]
  exact (List.perm_append_comm_assoc _ _ _).append_left _

theorem removeCode (h : Counted held scheduler) (digest : Digest) (staging : Staging) :
    Counted ((scheduler.codes.remove digest).1 ++ held)
      { scheduler with codes := (scheduler.codes.remove digest).2, staging } := by
  refine h.of_perm h.wellFormed ?_ (fun live _ => ⟨_, live⟩) (fun live => .inl ⟨_, live, rfl⟩)
  refine (((CodeTable.waiters_remove_perm _ digest).append_left
    scheduler.requests.waiters).append_left held).trans ?_
  refine ((List.perm_append_comm_assoc _ _ _).append_left _).trans ?_
  rw [List.append_assoc]
  exact List.perm_append_comm_assoc _ _ _

/-- A request that waits for nothing more gives way, and its parents are next. -/
theorem complete (h : Counted held scheduler)
    (live : scheduler.requests.live? id = some request) (pending_eq : request.pending = 0)
    {bytes : Bytes} (known : request.bytes = some bytes) :
    Counted (request.parents ++ held) (scheduler.complete id request bytes) := by
  have waiters_eq : request.waiters = request.parents := by
    simp [Request.waiters_eq, h.wellFormed.aliases_eq_nil live known]
  refine h.of_perm (h.wellFormed.remove live) ?_ ?_ ?_
  · rw [waiters]
    refine (((RequestTable.waiters_remove_perm live request).append_right _).append_left _).trans ?_
    rw [waiters_eq, List.append_assoc, List.append_assoc]
    exact List.perm_append_comm_assoc _ _ _
  · intro other old old_live positive
    refine ⟨old, ?_⟩
    rw [Scheduler.complete, RequestTable.live?_remove live, if_neg, old_live]
    rintro rfl
    obtain rfl : request = old := by simpa [live] using old_live
    omega
  · intro other current current_live
    rw [Scheduler.complete, RequestTable.live?_remove live] at current_live
    split at current_live
    · simp at current_live
    · exact .inl ⟨_, current_live, rfl⟩

theorem answered (h : Counted held scheduler)
    (live : scheduler.requests.live? id = some request) (inFlight : id ∈ scheduler.requests.inFlight)
    (bytes : Bytes) :
    Counted (request.aliases.flatMap Alias.parents ++ held)
      { scheduler with requests := scheduler.requests.answered id request bytes } := by
  refine h.of_perm (h.wellFormed.answered live bytes inFlight) ?_ ?_ ?_
  · rw [waiters]
    refine (((RequestTable.waiters_answered_perm live bytes).append_right _).append_left _).trans ?_
    rw [List.append_assoc, List.append_assoc]
    exact List.perm_append_comm_assoc _ _ _
  · intro other old old_live _
    rw [RequestTable.live?_answered live]
    split
    · exact ⟨_, rfl⟩
    · exact ⟨_, old_live⟩
  · intro other current current_live
    rw [RequestTable.live?_answered live] at current_live
    split at current_live
    · rename_i same
      subst same
      obtain rfl := Option.some.inj current_live
      exact .inl ⟨request, live, rfl⟩
    · exact .inl ⟨_, current_live, rfl⟩

theorem handOut (h : Counted held scheduler) (max : Nat) (codes : CodeTable)
    (codes_eq : codes.requests = scheduler.codes.requests) :
    Counted held { scheduler with requests := scheduler.requests.handedOut max, codes } := by
  refine h.of_perm (h.wellFormed.handedOut max) (.of_eq ?_) (fun live _ => ⟨_, live⟩)
    (fun live => .inl ⟨_, live, rfl⟩)
  simp only [waiters, CodeTable.waiters, codes_eq]
  rfl

end Counted

end Scheduler

end TrieSync
