import Mathlib.Algebra.Order.BigOperators.Group.List
import Mathlib.Algebra.Order.Group.Nat
import TrieSync.Hash.Sha256
import TrieSync.Proofs.Closure
import TrieSync.Proofs.Outstanding

/-!
A synchronization never gets stuck: whatever waits, waits in the end for something that is queued or
in flight. What a node refers to lies strictly below it, so that no request waits for itself.
-/

namespace TrieSync

namespace Scheduler

variable {H : Hash} {store : Store} {task : Task} {tasks new : List Task}
  {scheduler after : Scheduler} {id waiter : RequestId} {occurrence : Occurrence} {code : Digest}
  {references : References}

/-- The bytes of a request are known, and what its node refers to. -/
def RefersTo (H : Hash) (scheduler : Scheduler) (id : RequestId) (references : References) : Prop :=
  ∃ request bytes, scheduler.requests.live? id = some request ∧ request.bytes = some bytes ∧
    scheduler.schema.references H request.occurrence.path bytes = .ok references

theorem RefersTo.step (h : RefersTo H scheduler id references)
    (wellFormed : scheduler.requests.WellFormed) (step : Step H store scheduler task new after) :
    RefersTo H after id references ∨ task = .release id ∧
      ∃ request, scheduler.requests.live? id = some request ∧ request.pending = 1 := by
  obtain ⟨request, bytes, live, known, decoded⟩ := h
  rcases step.live_kept wellFormed live with
    ⟨next, next_live, occurrence_eq, bytes_eq⟩ | ⟨task_eq, pending_eq, -⟩
  · refine .inl ⟨next, bytes, next_live, bytes_eq.trans known, ?_⟩
    rw [step.schema_eq, occurrence_eq, decoded]
  · exact .inr ⟨task_eq, request, live, pending_eq⟩

theorem refersTo_resolve (wellFormed : scheduler.requests.WellFormed) {bytes : Bytes}
    {parents : List RequestId} {requests : RequestTable}
    (decoded : scheduler.schema.references H occurrence.path bytes = .ok references)
    (inserted : scheduler.requests.insertFetched occurrence bytes parents = (id, requests)) :
    RefersTo H (awaited { scheduler with requests } (some id)) id references := by
  have live := live?_insertFetched_self wellFormed inserted
  obtain ⟨pending, awaited_live⟩ :=
    @exists_awaited_of_live { scheduler with requests } (some id) id _ live
  refine ⟨_, bytes, awaited_live, rfl, ?_⟩
  rw [schema_awaited]
  exact decoded

section waiting

theorem WaitsFor.of_step (wellFormed : scheduler.requests.WellFormed)
    (step : Step H store scheduler task new after)
    (h : after.WaitsFor (some waiter) occurrence) :
    scheduler.WaitsFor (some waiter) occurrence ∨ task.Brings (some waiter) occurrence := by
  obtain ⟨other, next, waiting, next_live, place, waits⟩ := h
  have waits : waiter ∈ waiting := waits (by simp)
  cases step.origin wellFormed next_live with
  | kept old_live => exact .inl ⟨other, _, waiting, old_live, place, by simpa using waits⟩
  | linked old_live _ _ digest_eq =>
      refine (Request.places_link_cases _ _ _ place waits).imp ?_ ?_
      · rintro ⟨before, old_place, old_waits⟩
        exact ⟨other, _, before, old_live, old_place, by simpa using old_waits⟩
      · rintro ⟨rfl, rfl⟩
        exact ⟨by rw [digest_eq], List.Subset.refl _⟩
  | asked | askedAgain | placed =>
      obtain ⟨rfl, rfl⟩ : occurrence = _ ∧ waiting = _ := by
        simpa [Request.places, Request.waiting] using place
      exact .inr ⟨rfl, by simpa using waits⟩

theorem Expects.of_step (wellFormed : scheduler.requests.WellFormed)
    (step : Step H store scheduler task new after)
    (h : Expects (new ++ tasks) after (some waiter) occurrence) :
    Expects (task :: tasks) scheduler (some waiter) occurrence ∨
      ∃ references, RefersTo H after waiter references ∧ occurrence ∈ references.nodes := by
  rcases h with waits | ⟨other, member, brings⟩
  · refine .inl ((waits.of_step wellFormed step).imp_right ?_)
    exact fun brings => ⟨task, List.mem_cons_self, brings⟩
  · rcases List.mem_append.mp member with member | member
    · cases step with
      | copy =>
          obtain rfl := List.mem_singleton.mp member
          exact .inl (.inr ⟨_, List.mem_cons_self, brings⟩)
      | @resolve put bytes parents references fresh requests decoded inserted =>
          simp only [References.tasks, List.mem_append, List.mem_map, List.mem_singleton] at member
          rcases member with ⟨node, node_mem, rfl⟩ | ⟨code, -, rfl⟩ | rfl
          · obtain ⟨rfl, waits⟩ := brings
            obtain rfl : waiter = fresh := by simpa using waits
            exact .inr ⟨references, refersTo_resolve wellFormed decoded inserted, node_mem⟩
          · exact brings.elim
          · exact brings.elim
      | complete =>
          obtain ⟨parent, -, rfl⟩ := List.mem_map.mp member
          exact brings.elim
      | _ => simp at member
    · exact .inl (.inr ⟨other, List.mem_cons_of_mem _ member, brings⟩)

theorem WaitsForCode.of_insert {parent : Option RequestId} {digest : Digest} {path : Path}
    (h : Scheduler.WaitsForCode
      { scheduler with codes := scheduler.codes.insert digest path parent } waiter code) :
    scheduler.WaitsForCode waiter code ∨ code = digest ∧ parent = some waiter := by
  unfold WaitsForCode CodeTable.insert at h
  split at h
  · rename_i request found
    obtain ⟨next, next_found, waits⟩ := h
    rw [Entries.getElem?_insert] at next_found
    split at next_found
    · rename_i same
      subst same
      obtain rfl := Option.some.inj next_found
      rcases List.mem_append.mp waits with waits | waits
      · exact .inl ⟨request, found, waits⟩
      · exact .inr ⟨rfl, Option.mem_toList.mp waits⟩
    · exact .inl ⟨next, next_found, waits⟩
  · obtain ⟨next, next_found, waits⟩ := h
    simp only [Entries.getElem?_insert] at next_found
    split at next_found
    · rename_i same
      obtain rfl := Option.some.inj next_found
      exact .inr ⟨same.symm, Option.mem_toList.mp waits⟩
    · exact .inl ⟨next, next_found, waits⟩

theorem WaitsForCode.of_remove {digest : Digest} {staging : Staging}
    (h : Scheduler.WaitsForCode
      { scheduler with codes := (scheduler.codes.remove digest).2, staging } waiter code) :
    scheduler.WaitsForCode waiter code := by
  obtain ⟨request, found, waits⟩ := h
  simp only [CodeTable.getElem?_requests_remove] at found
  split at found
  · simp at found
  · exact ⟨request, found, waits⟩

theorem ExpectsCode.of_step (wellFormed : scheduler.requests.WellFormed)
    (step : Step H store scheduler task new after)
    (h : ExpectsCode (new ++ tasks) after waiter code) :
    ExpectsCode (task :: tasks) scheduler waiter code ∨
      ∃ references, RefersTo H after waiter references ∧ code ∈ references.codes := by
  rcases h with waits | ⟨path, member⟩
  · rcases step.codes_cases with codes_eq | ⟨parent, path, digest, rfl, -, -, codes_eq⟩
    · exact .inl (.inl (by rwa [WaitsForCode, codes_eq] at waits))
    · have inserted : Scheduler.WaitsForCode
          { scheduler with codes := scheduler.codes.insert digest path parent } waiter code := by
        rwa [WaitsForCode, codes_eq] at waits
      refine .inl (inserted.of_insert.imp_right ?_)
      rintro ⟨rfl, rfl⟩
      exact ⟨path, List.mem_cons_self⟩
  · rcases List.mem_append.mp member with member | member
    · cases step with
      | @resolve put bytes parents references fresh requests decoded inserted =>
          simp only [References.tasks, List.mem_append, List.mem_map, List.mem_singleton] at member
          rcases member with ⟨node, -, same⟩ | ⟨other, other_mem, same⟩ | same
          · simp at same
          · obtain ⟨waiter_eq, -, rfl⟩ := Task.code.inj same
            obtain rfl := Option.some.inj waiter_eq
            exact .inr ⟨references, refersTo_resolve wellFormed decoded inserted, other_mem⟩
          · simp at same
      | complete => simp at member
      | _ => simp at member
    · exact .inl (.inr ⟨path, List.mem_cons_of_mem _ member⟩)

end waiting

/-- Requests wait only for what their nodes refer to, and none whose bytes are known waits for
nothing. -/
structure Justified (H : Hash) (tasks : List Task) (scheduler : Scheduler) : Prop where
  node : ∀ {waiter occurrence}, Expects tasks scheduler (some waiter) occurrence →
    ∃ references, RefersTo H scheduler waiter references ∧ occurrence ∈ references.nodes
  code : ∀ {waiter code}, ExpectsCode tasks scheduler waiter code →
    ∃ references, RefersTo H scheduler waiter references ∧ code ∈ references.codes
  waits : ∀ {id request}, scheduler.requests.live? id = some request → request.bytes ≠ none →
    0 < request.pending

namespace Justified

private theorem kept (coherent : Coherent (task :: tasks) scheduler)
    (step : Step H store scheduler task new after) (refers : RefersTo H scheduler waiter references)
    (not_last : ∀ {request}, task = .release waiter →
      scheduler.requests.live? waiter = some request → request.pending ≠ 1) :
    RefersTo H after waiter references := by
  rcases refers.step coherent.counted.wellFormed step with kept | ⟨task_eq, request, live, last⟩
  · exact kept
  · exact absurd last (not_last task_eq live)

private theorem waits_step (wellFormed : scheduler.requests.WellFormed)
    (waits : ∀ {id request}, scheduler.requests.live? id = some request → request.bytes ≠ none →
      0 < request.pending)
    (step : Step H store scheduler task new after) {request : Request}
    (live : after.requests.live? id = some request) (known : request.bytes ≠ none) :
    0 < request.pending := by
  cases step.origin wellFormed live with
  | kept old_live positive => exact (positive (waits old_live known)).resolve_right known
  | linked old_live positive =>
      rw [Request.pending_link]
      exact positive (waits old_live (by simpa using known))
  | asked | askedAgain => simp [Request.waiting] at known
  | placed => exact Nat.one_pos

theorem step (h : Justified H (task :: tasks) scheduler)
    (coherent : Coherent (task :: tasks) scheduler) (step : Step H store scheduler task new after) :
    Justified H (new ++ tasks) after where
  node {waiter occurrence} expects := by
    rcases expects.of_step coherent.counted.wellFormed step with expects | refers
    · obtain ⟨references, refers, member⟩ := h.node expects
      refine ⟨references, kept coherent step refers ?_, member⟩
      rintro request rfl live last
      exact not_expects coherent live last expects
    · exact refers
  code {waiter code} expects := by
    rcases expects.of_step coherent.counted.wellFormed step with expects | refers
    · obtain ⟨references, refers, member⟩ := h.code expects
      refine ⟨references, kept coherent step refers ?_, member⟩
      rintro request rfl live last
      exact not_expectsCode coherent live last expects
    · exact refers
  waits := waits_step coherent.counted.wellFormed h.waits step

section turn

variable {call : Call} {start : Scheduler}

private theorem refersTo_received {request : Request} {bytes : Bytes}
    (h : RefersTo H scheduler waiter references)
    (live : scheduler.requests.live? id = some request) (unknown : request.bytes = none) :
    RefersTo H ((scheduler.received id request bytes).awaited (some id)) waiter references := by
  obtain ⟨current, known_bytes, current_live, known, decoded⟩ := h
  have other_ne : id ≠ waiter := by
    rintro rfl
    obtain rfl := Option.some.inj (live.symm.trans current_live)
    simp [unknown] at known
  have received_live := (live?_received live bytes waiter).trans (if_neg other_ne)
  obtain ⟨pending, awaited_live⟩ :=
    exists_awaited_of_live (some id) (received_live.trans current_live)
  refine ⟨_, known_bytes, awaited_live, known, ?_⟩
  rw [schema_awaited]
  exact decoded

private theorem waitsFor_of_received {request : Request} {bytes : Bytes}
    (live : scheduler.requests.live? id = some request)
    (h : ((scheduler.received id request bytes).awaited (some id)).WaitsFor (some waiter)
      occurrence) : scheduler.WaitsFor (some waiter) occurrence := by
  obtain ⟨other, next, parents, next_live, place, waits⟩ := h
  rcases received_cases live next_live with ⟨rfl, rfl⟩ | ⟨-, next_live⟩
  · obtain ⟨rfl, rfl⟩ : occurrence = request.occurrence ∧ parents = request.parents := by
      simpa [Request.places] using place
    exact ⟨id, request, request.parents, live, List.mem_cons_self, waits⟩
  · exact ⟨other, next, parents, next_live, place, waits⟩

private theorem of_tasks (h : Justified H [] scheduler)
    (no_node : ∀ task ∈ tasks, ∀ waiter occurrence, ¬ task.Brings (some waiter) occurrence)
    (no_code : ∀ waiter path code, .code (some waiter) path code ∉ tasks) :
    Justified H tasks scheduler where
  node := by
    rintro waiter occurrence (waits | ⟨task, member, brings⟩)
    · exact h.node (.inl waits)
    · exact absurd brings (no_node task member waiter occurrence)
  code := by
    rintro waiter code (waits | ⟨path, member⟩)
    · exact h.code (.inl waits)
    · exact absurd member (no_code waiter path code)
  waits := h.waits

private theorem answered (h : Justified H [] scheduler) {request : Request} {bytes : Bytes}
    (live : scheduler.requests.live? id = some request) (unknown : request.bytes = none)
    (decoded : scheduler.schema.references H request.occurrence.path bytes = .ok references) :
    Justified H (references.tasks id request.occurrence.path ++ request.copies bytes)
      ((scheduler.received id request bytes).awaited (some id)) := by
  have answered : RefersTo H ((scheduler.received id request bytes).awaited (some id)) id
      references := by
    have received_live := live?_received_self live bytes
    obtain ⟨pending, awaited_live⟩ := exists_awaited_of_live (some id) received_live
    refine ⟨_, bytes, awaited_live, rfl, ?_⟩
    rw [schema_awaited]
    exact decoded
  have earlier {waiter occurrence} (waits : scheduler.WaitsFor (some waiter) occurrence) :
      ∃ references, RefersTo H ((scheduler.received id request bytes).awaited (some id)) waiter
        references ∧ occurrence ∈ references.nodes := by
    obtain ⟨references, refers, member⟩ := h.node (.inl waits)
    exact ⟨references, refersTo_received refers live unknown, member⟩
  refine ⟨?_, ?_, ?_⟩
  · rintro waiter occurrence (waits | ⟨task, member, brings⟩)
    · exact earlier (waitsFor_of_received live waits)
    · rcases List.mem_append.mp member with member | member
      · simp only [References.tasks, List.mem_append, List.mem_map, List.mem_singleton] at member
        rcases member with ⟨node, node_mem, rfl⟩ | ⟨code, -, rfl⟩ | rfl
        · obtain ⟨rfl, waits⟩ := brings
          obtain rfl : waiter = id := by simpa using waits
          exact ⟨references, answered, node_mem⟩
        · exact brings.elim
        · exact brings.elim
      · obtain ⟨other, other_mem, rfl⟩ := List.mem_map.mp member
        obtain ⟨rfl, waits⟩ := brings
        exact earlier ⟨id, request, other.parents, live,
          List.mem_cons_of_mem _ (List.mem_map_of_mem other_mem), waits⟩
  · rintro waiter code (waits | ⟨place, member⟩)
    · have waits : scheduler.WaitsForCode waiter code := by
        simpa [WaitsForCode, received] using waits
      obtain ⟨references, refers, member⟩ := h.code (.inl waits)
      exact ⟨references, refersTo_received refers live unknown, member⟩
    · simp only [References.tasks, Request.copies, List.mem_append, List.mem_map,
        List.mem_singleton] at member
      rcases member with (⟨node, -, same⟩ | ⟨other, other_mem, same⟩ | same) | ⟨other, -, same⟩
      · simp at same
      · obtain ⟨waiter_eq, -, rfl⟩ := Task.code.inj same
        obtain rfl := Option.some.inj waiter_eq
        exact ⟨references, answered, other_mem⟩
      · simp at same
      · simp at same
  · intro other current current_live known
    rcases received_cases live current_live with ⟨-, rfl⟩ | ⟨-, old_live⟩
    · exact Nat.succ_pos _
    · exact h.waits old_live known

theorem turn (h : Justified H [] scheduler) (coherent : Coherent [] scheduler)
    (turn : Turn H scheduler call tasks start) : Justified H tasks start := by
  cases turn with
  | addSubTrie | addCode => exact h.of_tasks (by simp [Task.Brings]) (by simp)
  | missing => exact ⟨h.node, h.code, h.waits⟩
  | processNode responsible inFlight live path_eq digest_eq decoded =>
      have unknown := coherent.counted.wellFormed.unknown_of_inFlight inFlight live
      subst path_eq
      exact h.answered live unknown decoded
  | @processCode digest bytes =>
      have removed : Justified H [] { scheduler with
          codes := (scheduler.codes.remove digest).2
          staging := scheduler.staging.insertCode digest bytes } := by
        refine ⟨h.node, ?_, h.waits⟩
        rintro waiter code (waits | ⟨path, member⟩)
        · exact h.code (.inl waits.of_remove)
        · simp at member
      refine removed.of_tasks ?_ (by simp)
      intro task member waiter occurrence
      obtain ⟨parent, -, rfl⟩ := List.mem_map.mp member
      exact id

end turn

theorem works (h : Justified H tasks scheduler) (coherent : Coherent tasks scheduler)
    (works : Works H store tasks scheduler after) : Justified H [] after :=
  (works.keeps (Justified H) (fun coherent h step => h.step coherent step) coherent h).2

theorem ofRoot (H : Hash) (schema : Schema) (root : Digest) :
    Justified H [.node none ⟨.root, root⟩] (idle schema) := by
  refine of_tasks ⟨?_, ?_, ?_⟩ (by simp [Task.Brings]) (by simp)
  · rintro waiter occurrence (⟨other, request, parents, live, -⟩ | ⟨task, member, -⟩)
    · simp [idle, RequestTable.live?, RequestTable.empty] at live
    · simp at member
  · rintro waiter code (⟨request, found, -⟩ | ⟨path, member⟩)
    · simp [idle, CodeTable.empty] at found
    · simp at member
  · simp [idle, RequestTable.live?, RequestTable.empty]

end Justified

/-- What is in flight was handed out, and not answered since. -/
structure OnRecord (scheduler : Scheduler) (said : List Message) : Prop where
  node : ∀ {occurrence}, scheduler.InFlight occurrence →
    ∃ earlier later, said = earlier ++ .askedNode occurrence :: later ∧
      ∀ bytes, .answeredNode occurrence.path bytes ∉ later
  code : ∀ {code}, code ∈ scheduler.codes.inFlight →
    ∃ earlier later, said = earlier ++ .askedCode code :: later ∧
      ∀ bytes, .answeredCode code bytes ∉ later

theorem OnRecord.perform {call : Call} {start : Scheduler} {said : List Message}
    {past : List Occurrence} (h : OnRecord scheduler said) (coherent : Coherent [] scheduler)
    (addressed : Addressed H [] scheduler past)
    (performed : scheduler.perform H store call = .ok after)
    (turn : Turn H scheduler call tasks start) (start_coherent : Coherent tasks start)
    (works : Works H store tasks start after) :
    OnRecord after (said ++ scheduler.messages H store call) where
  node {occurrence} inFlight := by
    rcases (inFlight_iff_of_performed coherent addressed performed turn start_coherent works).mp
      inFlight with ⟨before, not_answered⟩ | asked
    · obtain ⟨earlier, later, rfl, not_later⟩ := h.node before
      refine ⟨earlier, later ++ scheduler.messages H store call, by simp, ?_⟩
      simp [not_later, not_answered]
    · obtain ⟨front, back, messages_eq⟩ := List.append_of_mem asked
      refine ⟨said ++ front, back, by simp [messages_eq], fun bytes answered => ?_⟩
      rcases notMem_messages coherent H store call with ⟨no_answer, -⟩ | ⟨no_node, -⟩
      · exact no_answer occurrence.path bytes (by simp [messages_eq, answered])
      · exact no_node _ asked
  code {code} inFlight := by
    rcases (mem_codes_inFlight_iff_of_performed coherent performed turn start_coherent works).mp
      inFlight with ⟨before, not_answered⟩ | asked
    · obtain ⟨earlier, later, rfl, not_later⟩ := h.code before
      refine ⟨earlier, later ++ scheduler.messages H store call, by simp, ?_⟩
      simp [not_later, not_answered]
    · obtain ⟨front, back, messages_eq⟩ := List.append_of_mem asked
      refine ⟨said ++ front, back, by simp [messages_eq], fun bytes answered => ?_⟩
      rcases notMem_messages coherent H store call with ⟨-, no_answer⟩ | ⟨-, no_code⟩
      · exact no_answer code bytes (by simp [messages_eq, answered])
      · exact no_code _ asked

theorem OnRecord.ofRoot {schema : Schema} {root : Digest}
    (works : Works H store [.node none ⟨.root, root⟩] (idle schema) after) : OnRecord after [] where
  node inFlight := absurd inFlight works.no_inFlight
  code inFlight := by
    rw [works.codes_inFlight_eq (coherent_node (coherent_idle schema) ⟨.root, root⟩)] at inFlight
    simp [idle, CodeTable.empty] at inFlight

/-- What a live request for a node may be up to. -/
inductive Phase
  | queued
  | inFlight
  /-- It waits for a reference of its node, whose bytes are known. -/
  | waiting

def InPhase (H : Hash) (scheduler : Scheduler) (id : RequestId) : Phase → Prop
  | .queued => ∃ path : Path, scheduler.requests.queue[path]? = some id
  | .inFlight => id ∈ scheduler.requests.inFlight
  | .waiting => ∃ references, RefersTo H scheduler id references ∧
      ((∃ node ∈ references.nodes, scheduler.WaitsFor (some id) node) ∨
        ∃ code ∈ references.codes, scheduler.WaitsForCode id code)

/-- Some live request for a node or for code is queued or in flight. -/
def Asking (H : Hash) (scheduler : Scheduler) : Prop :=
  (∃ id request, scheduler.requests.live? id = some request ∧
    (InPhase H scheduler id .queued ∨ InPhase H scheduler id .inFlight)) ∨
  ∃ code request, scheduler.codes.requests[code]? = some request ∧
    (⟨request.path, code⟩ ∈ scheduler.codes.queue ∨ code ∈ scheduler.codes.inFlight)

section phases

variable {request : Request}

theorem exists_waitsFor_of_pending (coherent : Coherent [] scheduler)
    (live : scheduler.requests.live? id = some request) (pending : 0 < request.pending) :
    (∃ occurrence, scheduler.WaitsFor (some id) occurrence) ∨
      ∃ code, scheduler.WaitsForCode id code := by
  have member : id ∈ scheduler.waiters := (coherent.counted.mem_of_pending live).mpr pending
  rcases List.mem_append.mp member with member | member
  · obtain ⟨other, other_mem, member⟩ := List.mem_flatMap.mp member
    obtain ⟨⟨occurrence, parents⟩, place, waits⟩ := List.mem_flatMap.mp member
    obtain ⟨other_id, other_live⟩ := RequestTable.mem_requests_iff.mp other_mem
    exact .inl ⟨occurrence, other_id, other, parents, other_live, place, by simpa using waits⟩
  · obtain ⟨⟨code, codeRequest⟩, entry_mem, waits⟩ := List.mem_flatMap.mp member
    exact .inr ⟨code, codeRequest,
      Std.TreeMap.mem_toList_iff_getElem?_eq_some.mp entry_mem, waits⟩

theorem Justified.waiting (h : Justified H [] scheduler) (coherent : Coherent [] scheduler)
    (live : scheduler.requests.live? id = some request) (known : request.bytes ≠ none) :
    InPhase H scheduler id .waiting := by
  rcases exists_waitsFor_of_pending coherent live (h.waits live known) with
    ⟨occurrence, waits⟩ | ⟨code, waits⟩
  · obtain ⟨references, refers, member⟩ := h.node (.inl waits)
    exact ⟨references, refers, .inl ⟨occurrence, member, waits⟩⟩
  · obtain ⟨references, refers, member⟩ := h.code (.inl waits)
    exact ⟨references, refers, .inr ⟨code, member, waits⟩⟩

theorem existsUnique_phase (justified : Justified H [] scheduler)
    (outstanding : Outstanding H [] scheduler) (coherent : Coherent [] scheduler)
    (live : scheduler.requests.live? id = some request) : ∃! phase, InPhase H scheduler id phase := by
  have wellFormed := coherent.counted.wellFormed
  have unknown_of_queued (queued : InPhase H scheduler id .queued) : request.bytes = none := by
    obtain ⟨path, found⟩ := queued
    obtain ⟨old, old_live, -, unknown⟩ := wellFormed.queue_live found
    exact Option.some.inj (live.symm.trans old_live) ▸ unknown
  have unknown_of_inFlight (inFlight : InPhase H scheduler id .inFlight) :
      request.bytes = none := by
    exact wellFormed.unknown_of_inFlight inFlight live
  have known_of_waiting (waiting : InPhase H scheduler id .waiting) : request.bytes ≠ none := by
    obtain ⟨references, ⟨old, bytes, old_live, known, -⟩, -⟩ := waiting
    rw [Option.some.inj (live.symm.trans old_live), known]
    simp
  have apart (queued : InPhase H scheduler id .queued) : ¬ InPhase H scheduler id .inFlight := by
    obtain ⟨path, found⟩ := queued
    exact fun inFlight => wellFormed.notQueued_of_inFlight inFlight path found
  by_cases known : request.bytes = none
  · rcases outstanding.requested id request live known with found | inFlight
    · refine ⟨.queued, ⟨_, found⟩, ?_⟩
      rintro (_ | _ | _) other
      · rfl
      · exact absurd other (apart ⟨_, found⟩)
      · exact absurd known (known_of_waiting other)
    · refine ⟨.inFlight, inFlight, ?_⟩
      rintro (_ | _ | _) other
      · exact absurd inFlight (apart other)
      · rfl
      · exact absurd known (known_of_waiting other)
  · refine ⟨.waiting, justified.waiting coherent live known, ?_⟩
    rintro (_ | _ | _) other
    · exact absurd (unknown_of_queued other) known
    · exact absurd (unknown_of_inFlight other) known
    · rfl

/-- If nothing is asked for, then a request waits for another one strictly below it. -/
theorem exists_deeper (justified : Justified H [] scheduler)
    (outstanding : Outstanding H [] scheduler) (coherent : Coherent [] scheduler)
    (not_asking : ¬ Asking H scheduler) (live : scheduler.requests.live? id = some request) :
    ∃ other next, scheduler.requests.live? other = some next ∧
      request.occurrence.path.walk.length < next.occurrence.path.walk.length := by
  have known_of_live {id request} (live : scheduler.requests.live? id = some request) :
      request.bytes ≠ none := by
    intro unknown
    refine not_asking (.inl ⟨id, request, live, ?_⟩)
    exact (outstanding.requested id request live unknown).imp_left fun found => ⟨_, found⟩
  obtain ⟨references, ⟨old, bytes, old_live, -, decoded⟩, waits⟩ :=
    justified.waiting coherent live (known_of_live live)
  obtain rfl := Option.some.inj (live.symm.trans old_live)
  rcases waits with ⟨node, node_mem, other, next, parents, next_live, place, -⟩ |
    ⟨code, -, codeRequest, found, -⟩
  · obtain ⟨next_bytes, next_known⟩ := Option.ne_none_iff_exists'.mp (known_of_live next_live)
    have aliases_eq := coherent.counted.wellFormed.aliases_eq_nil next_live next_known
    obtain ⟨rfl, -⟩ : node = next.occurrence ∧ parents = next.parents := by
      simpa [Request.places, aliases_eq] using place
    have below := Schema.references_below decoded
    refine ⟨other, next, next_live, lt_of_le_of_ne (below.covers _ node_mem).length_le ?_⟩
    intro same
    have path_eq := Path.walk_injective ((below.covers _ node_mem).eq_of_length same)
    exact below.not_covers _ node_mem (path_eq ▸ Path.Covers.refl _)
  · exact absurd (.inr ⟨code, codeRequest, found, outstanding.codes.requested found⟩) not_asking

theorem asking_of_pending (justified : Justified H [] scheduler)
    (outstanding : Outstanding H [] scheduler) (coherent : Coherent [] scheduler)
    (pending : 0 < scheduler.pending) : Asking H scheduler := by
  by_contra not_asking
  -- Without end, requests would wait for others at ever longer ways.
  have deep : ∀ length, ∀ {id request}, scheduler.requests.live? id = some request →
      ∃ other next, scheduler.requests.live? other = some next ∧
        length ≤ next.occurrence.path.walk.length := by
    intro length
    induction length with
    | zero => exact fun live => ⟨_, _, live, Nat.zero_le _⟩
    | succ length ih =>
        intro id request live
        obtain ⟨between, middle, middle_live, le⟩ := ih live
        obtain ⟨other, next, next_live, lt⟩ :=
          exists_deeper justified outstanding coherent not_asking middle_live
        exact ⟨other, next, next_live, by omega⟩
  have no_code : scheduler.codes.size = 0 := by
    by_contra nonempty
    obtain ⟨⟨code, request⟩, member⟩ : ∃ entry, entry ∈ scheduler.codes.requests.toList := by
      refine List.exists_mem_of_length_pos ?_
      rw [Std.TreeMap.length_toList]
      exact Nat.pos_of_ne_zero nonempty
    have found := Std.TreeMap.mem_toList_iff_getElem?_eq_some.mp member
    exact not_asking (.inr ⟨code, request, found, outstanding.codes.requested found⟩)
  have some_node : 0 < scheduler.requests.requests.length := by
    rw [coherent.counted.wellFormed.length_requests]
    rw [Scheduler.pending, no_code] at pending
    exact pending
  obtain ⟨request, member⟩ := List.exists_mem_of_length_pos some_node
  obtain ⟨id, live⟩ := RequestTable.mem_requests_iff.mp member
  obtain ⟨other, next, next_live, le⟩ := deep
    ((scheduler.requests.requests.map fun request => request.occurrence.path.walk.length).sum + 1)
    live
  have bound := List.le_sum_of_mem (List.mem_map_of_mem
    (f := fun request : Request => request.occurrence.path.walk.length)
    (RequestTable.mem_requests_iff.mpr ⟨other, next_live⟩))
  omega

end phases

/-- Every request that was handed out was answered later on. -/
def AllAnswered (said : List Message) : Prop :=
  (∀ earlier occurrence later, said = earlier ++ .askedNode occurrence :: later →
    ∃ bytes, .answeredNode occurrence.path bytes ∈ later) ∧
  ∀ earlier code later, said = earlier ++ .askedCode code :: later →
    ∃ bytes, .answeredCode code bytes ∈ later

/-- A scheduler goes on until it is done. -/
structure Unstuck (H : Hash) (scheduler : Scheduler) (said : List Message) : Prop where
  phase : ∀ {id request}, scheduler.requests.live? id = some request →
    ∃! phase, InPhase H scheduler id phase
  asking : 0 < scheduler.pending → Asking H scheduler
  /-- When nothing is handed out any more and all that was is answered, only a commit is missing. -/
  finishing : ∃ missing after, scheduler.missing 0 = .ok (missing, after) ∧
    (missing = ⟨[], []⟩ → AllAnswered said → after.pending = 0 ∧
      ∀ batch store written, (after.commit batch store).result = .ok written →
        (after.commit batch store).scheduler.isDone = true)

section finishing

theorem isDone_of_commit {batch : Batch} {store : Store} {written : Nat}
    (pending : scheduler.pending = 0)
    (result : (scheduler.commit batch store).result = .ok written) :
    (scheduler.commit batch store).scheduler.isDone = true := by
  unfold Scheduler.commit at result ⊢
  split at result
  · rename_i nothing
    simp [isDone, pending, nothing]
  · rename_i something
    rw [if_neg something]
    cases write_eq : store.write (batch.append scheduler.staging.puts) with
    | error => simp [write_eq] at result
    | ok =>
        have staging_empty : Staging.empty.isEmpty = true := rfl
        simpa [write_eq, isDone, Scheduler.pending, staging_empty] using pending

theorem not_asking_of_allAnswered {said : List Message} (record : OnRecord scheduler said)
    (answered : AllAnswered said) (no_node : scheduler.requests.queue.toList = [])
    (no_code : scheduler.codes.queue.toList = []) : ¬ Asking H scheduler := by
  rintro (⟨id, request, live, ⟨path, found⟩ | inFlight⟩ | ⟨code, request, found, queued | inFlight⟩)
  · have member := Std.TreeMap.mem_toList_iff_getElem?_eq_some.mpr found
    simp [no_node] at member
  · obtain ⟨earlier, later, said_eq, not_answered⟩ := record.node ⟨id, request, inFlight, live, rfl⟩
    obtain ⟨bytes, answer⟩ := answered.1 _ _ _ said_eq
    exact not_answered bytes answer
  · have member := Std.TreeSet.mem_toList.mpr queued
    simp [no_code] at member
  · obtain ⟨earlier, later, said_eq, not_answered⟩ := record.code inFlight
    obtain ⟨bytes, answer⟩ := answered.2 _ _ _ said_eq
    exact not_answered bytes answer

end finishing

section life

variable {schema : Schema} {root : Digest} {deeds : List Deed} {said : List Message}

private theorem unstuck (coherent : Coherent [] scheduler)
    (outstanding : Outstanding H [] scheduler) (justified : Justified H [] scheduler)
    (record : OnRecord scheduler said) : Unstuck H scheduler said where
  phase live := existsUnique_phase justified outstanding coherent live
  asking := asking_of_pending justified outstanding coherent
  finishing := by
    obtain ⟨occurrences, missing_eq, paths_eq, -⟩ := messages_missing coherent H (.empty .byPath) 0
    refine ⟨_, _, missing_eq, ?_⟩
    intro nothing answered
    obtain ⟨rfl, codes_eq⟩ := Missing.mk.inj nothing
    have no_node : scheduler.requests.queue.toList = [] := List.map_eq_nil_iff.mp paths_eq.symm
    have no_code : scheduler.codes.queue.toList = [] := List.map_eq_nil_iff.mp codes_eq
    have not_asking := not_asking_of_allAnswered record answered no_node no_code (H := H)
    have pending : scheduler.pending = 0 := by
      by_contra pending_ne
      exact not_asking (asking_of_pending justified outstanding coherent
        (Nat.pos_of_ne_zero pending_ne))
    exact ⟨pending, fun batch store written => isDone_of_commit pending⟩

/-- However a scheduler is answered and whatever the store holds, it goes on until it is done. -/
theorem unstuck_of_life (no_trie : ∀ store occurrence, .call store (.addSubTrie occurrence) ∉ deeds)
    (lived : life H store schema root deeds = .ok (scheduler, said)) :
    Unstuck H scheduler said := by
  suffices invariant : Coherent [] scheduler ∧ Outstanding H [] scheduler ∧
      Justified H [] scheduler ∧ OnRecord scheduler said by
    obtain ⟨coherent, outstanding, justified, record⟩ := invariant
    exact unstuck coherent outstanding justified record
  refine life_keeps (P := fun scheduler said => Outstanding H [] scheduler ∧
    Justified H [] scheduler ∧ OnRecord scheduler said) ?_ ?_ lived
  · intro scheduler works
    have coherent := coherent_node (coherent_idle schema) ⟨.root, root⟩
    refine ⟨(Outstanding.ofRoot H schema root).works coherent works,
      (Justified.ofRoot H schema root).works coherent works, ?_, ?_⟩
    · intro occurrence inFlight
      obtain ⟨id, request, -, live, -⟩ := (works.inFlight_iff coherent).mp inFlight
      simp [idle, RequestTable.live?, RequestTable.empty] at live
    · intro code inFlight
      rw [works.codes_inFlight_eq coherent] at inFlight
      simp [idle, CodeTable.empty] at inFlight
  · rintro scheduler all deed said after member coherent ⟨outstanding, justified, record⟩ acts
    cases acts with
    | refuse | commitNothing =>
        rw [List.append_nil]
        exact ⟨outstanding, justified, record⟩
    | @perform store call tasks start after performed turn start_coherent works =>
        have no_trie_call : ∀ occurrence, call ≠ .addSubTrie occurrence := by
          rintro occurrence rfl
          exact no_trie store occurrence member
        obtain ⟨past, addressed⟩ := outstanding.addressed
        exact ⟨(outstanding.turn coherent no_trie_call turn).works start_coherent works,
          (justified.turn coherent turn).works start_coherent works,
          record.perform coherent addressed performed turn start_coherent works⟩
    | commit =>
        rw [List.append_nil]
        exact ⟨outstanding.commit, ⟨justified.node, justified.code, justified.waits⟩,
          ⟨record.node, record.code⟩⟩

/-- A leaf is at two places of a branch, and another one at a third. The first is known, and copied,
when the branch still waits for the other one. -/
theorem unstuck_of_life_shared :
    let shared : Bytes := (Node.leaf [1, 2] [7]).encode
    let other : Bytes := (Node.leaf [3] [9]).encode
    let children := ((Children.absent.set 1 (some (Hash.sha256 shared))).set 2
      (some (Hash.sha256 shared))).set 3 (some (Hash.sha256 other))
    let branch : Bytes := (Node.branch children none).encode
    let store : Store := .empty .byPath
    let deeds : List Deed :=
      [.call store (.missing 0), .call store (.processNode .root branch),
        .call store (.missing 0), .call store (.processNode ⟨.root, [1]⟩ shared),
        .commit store .empty]
    (∀ store occurrence, .call store (.addSubTrie occurrence) ∉ deeds) ∧
      ∃ scheduler said, life Hash.sha256 store .plain (Hash.sha256 branch) deeds =
        .ok (scheduler, said) ∧ scheduler.pending = 2 ∧ Unstuck Hash.sha256 scheduler said := by
  intro shared other children branch store deeds
  have no_trie : ∀ store occurrence, .call store (.addSubTrie occurrence) ∉ deeds := by
    simp [deeds]
  refine ⟨no_trie, ?_⟩
  have pending_eq : (life Hash.sha256 store .plain (Hash.sha256 branch) deeds).map
      (fun result => result.1.pending) = .ok 2 := by
    decide +kernel
  obtain ⟨⟨scheduler, said⟩, lived, pending_eq⟩ := map_eq_ok.mp pending_eq
  exact ⟨scheduler, said, lived, pending_eq, unstuck_of_life no_trie lived⟩

end life

end Scheduler

end TrieSync
