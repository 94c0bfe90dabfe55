import TrieSync.Proofs.Acceptance
import TrieSync.Proofs.Ledger

namespace TrieSync

/-- What an action returns. -/
inductive Reply
  | done
  | missing (missing : Missing)
  | rejected (rejection : Rejection)
  /-- So much was staged, and is written. -/
  | committed (size : Nat)
  | unwritten (error : WriteError)
deriving DecidableEq

def Reply.failed : Reply → Bool
  | rejected _ | unwritten _ => true
  | done | missing _ | committed _ => false

namespace Scheduler

/-- What a call returns that is not refused. -/
def result (scheduler : Scheduler) : Call → Except Fault Reply
  | .missing max => (scheduler.missing max).map fun (missing, _) => .missing missing
  | .addSubTrie _ | .addCode _ _ | .processNode _ _ | .processCode _ _ => .ok .done

/-- What a call returns. -/
def reply (scheduler : Scheduler) (H : Hash) (store : Store) (call : Call) : Except Fault Reply :=
  match scheduler.perform H store call with
  | .ok _ => scheduler.result call
  | .error (.rejected rejection) => .ok (.rejected rejection)
  | .error (.fault fault) => .error fault

end Scheduler

namespace Session

/-- What an action returns. -/
def reply (session : Session) (H : Hash) : Action → Except Fault Reply
  | .call call => session.scheduler.reply H session.store call
  | .commit batch =>
      match (session.scheduler.commit (session.batches batch) session.store).result with
      | .ok size => .ok (.committed size)
      | .error error => .ok (.unwritten error)
  | .rejectWrites _ => .ok .done

/-- The entry of an action in a log, unless it does not return. -/
def entry (session : Session) (H : Hash) (action : Action) : List (Action × Reply) :=
  match session.reply H action with
  | .ok reply => [(action, reply)]
  | .error _ => []

theorem entry_eq {session : Session} {H : Hash} {action : Action} {reply : Reply}
    (replied : session.reply H action = .ok reply) :
    session.entry H action = [(action, reply)] := by
  rw [entry, replied]

/-- One action of a run, which goes into the log. -/
def logged (H : Hash) :
    Session × List (Action × Reply) → Action → Except Fault (Session × List (Action × Reply)) :=
  recorded (fun session action => session.step H action)
    fun session action => session.entry H action

/-- The run of a new scheduler for a root, alone on a store, and all that is returned in it. -/
def log (H : Hash) (schema : Schema) (start : Store) (root : Digest) (actions : List Action) :
    Except Fault (Session × List (Action × Reply)) := do
  let session ← ofRoot H start schema root
  actions.foldlM (logged H) (session, [])

end Session

/-- What is owed at a path after one more entry of a log. -/
def owedAfter (path : Path) (owed : Option Digest) : Action × Reply → Option Digest
  | (_, .missing missing) =>
      ((missing.nodes.find? fun node => node.path = path).map Occurrence.digest).or owed
  | (.call (.processNode answered _), .done) => if answered = path then none else owed
  | _ => owed

/-- The digest that was handed out last with a path, unless an answer was accepted there since. -/
def owed? (path : Path) (log : List (Action × Reply)) : Option Digest :=
  log.foldl (owedAfter path) none

def owesCodeAfter (digest : Digest) (owes : Bool) : Action × Reply → Bool
  | (_, .missing missing) => missing.codes.contains digest || owes
  | (.call (.processCode answered _), .done) => answered ≠ digest && owes
  | _ => owes

/-- Whether code was handed out since it was accepted last. -/
def owesCode (digest : Digest) (log : List (Action × Reply)) : Bool :=
  log.foldl (owesCodeAfter digest) false

/-- What is to be returned for bytes at a path. -/
def nodeReply (H : Hash) (schema : Schema) (log : List (Action × Reply)) (path : Path)
    (bytes : Bytes) : Reply :=
  match owed? path log with
  | none => .rejected (.notRequested path)
  | some digest =>
      if H bytes = digest then
        match schema.references H path bytes with
        | .error cause => .rejected (.undecodable path cause)
        | .ok _ => .done
      else
        .rejected (.nodeMismatch path digest (H bytes))

/-- What is to be returned for code. -/
def codeReply (H : Hash) (log : List (Action × Reply)) (digest : Digest) (bytes : Bytes) : Reply :=
  if owesCode digest log then
    if H bytes = digest then .done else .rejected (.codeMismatch digest (H bytes))
  else
    .rejected (.codeNotRequested digest)

theorem owed?_append (path : Path) (log : List (Action × Reply)) (entry : Action × Reply) :
    owed? path (log ++ [entry]) = owedAfter path (owed? path log) entry := by
  rw [owed?, List.foldl_append]
  rfl

theorem owesCode_append (digest : Digest) (log : List (Action × Reply)) (entry : Action × Reply) :
    owesCode digest (log ++ [entry]) = owesCodeAfter digest (owesCode digest log) entry := by
  rw [owesCode, List.foldl_append]
  rfl

namespace Scheduler

variable {H : Hash} {store : Store} {scheduler : Scheduler} {past : List Occurrence}
  {path : Path} {bytes : Bytes}

theorem Addressed.inFlight_unique (addressed : Addressed H [] scheduler past)
    (wellFormed : scheduler.requests.WellFormed) {digest other : Digest}
    (inFlight : scheduler.InFlight ⟨path, digest⟩)
    (other_inFlight : scheduler.InFlight ⟨path, other⟩) : digest = other := by
  obtain ⟨id, request, -, live, request_eq⟩ := inFlight
  obtain ⟨_, current, -, current_live, current_eq⟩ := other_inFlight
  have same_place : request.occurrence.path = current.occurrence.path := by
    rw [request_eq, current_eq]
  obtain rfl := addressed.id_eq_of_mem_paths wellFormed live current_live List.mem_cons_self
    (same_place ▸ List.mem_cons_self)
  obtain rfl := Option.some.inj (live.symm.trans current_live)
  exact congrArg Occurrence.digest (request_eq.symm.trans current_eq)

theorem inFlightAt?_eq_none (coherent : Coherent [] scheduler)
    (nothing : ∀ digest, ¬ scheduler.InFlight ⟨path, digest⟩) :
    scheduler.requests.inFlightAt? path = .ok none := by
  rcases RequestTable.inFlightAt?_cases coherent.counted.wellFormed path with
    nothing_found | ⟨id, request, -, inFlight, live, rfl, -⟩
  · exact nothing_found
  · exact absurd ⟨id, request, inFlight, live, rfl⟩ (nothing request.occurrence.digest)

theorem result_missing (coherent : Coherent [] scheduler) (H : Hash) (store : Store) (max : Nat) :
    ∃ occurrences,
      scheduler.result (.missing max) =
        .ok (.missing ⟨occurrences, (scheduler.codes.handOut max).1⟩) ∧
      scheduler.messages H store (.missing max) =
        occurrences.map .askedNode ++ (scheduler.codes.handOut max).1.map .askedCode := by
  obtain ⟨occurrences, missing_eq, -, -, messages_eq⟩ := messages_missing coherent H store max
  exact ⟨occurrences, by rw [result, missing_eq]; rfl, messages_eq⟩

end Scheduler

namespace Session

open Scheduler

variable {H : Hash} {schema : Schema} {start : Store} {root : Digest}
  {session next final : Session} {action : Action} {actions : List Action}
  {entries : List (Action × Reply)} {told : List Message}

private theorem entry_of_write (session : Session) (not_call : ∀ call, action ≠ .call call) :
    ∃ reply, session.entry H action = [(action, reply)] ∧
      (∀ path owed, owedAfter path owed (action, reply) = owed) ∧
      ∀ digest owes, owesCodeAfter digest owes (action, reply) = owes := by
  cases action with
  | call call => exact absurd rfl (not_call call)
  | rejectWrites => exact ⟨_, rfl, fun _ _ => rfl, fun _ _ => rfl⟩
  | commit batch =>
      rw [entry, Session.reply]
      cases (session.scheduler.commit (session.batches batch) session.store).result with
      | ok | error => exact ⟨_, rfl, fun _ _ => rfl, fun _ _ => rfl⟩

/-- The log tells what is in flight, and what is in flight is found. -/
structure Answerable (H : Hash) (schema : Schema) (session : Session)
    (log : List (Action × Reply)) : Prop where
  schema_eq : session.scheduler.schema = schema
  addressed : ∃ past, Addressed H [] session.scheduler past
  indexed : session.scheduler.requests.Indexed
  owed : ∀ path digest,
    owed? path log = some digest ↔ session.scheduler.InFlight ⟨path, digest⟩
  owesCode : ∀ digest, owesCode digest log = true ↔ digest ∈ session.scheduler.codes.inFlight

namespace Answerable

section perform

variable {call : Call} {tasks : List Task} {begun after : Scheduler}

private theorem entry_eq_of_performed
    (performed : session.scheduler.perform H session.store call = .ok after) {reply : Reply}
    (result_eq : session.scheduler.result call = .ok reply) :
    session.entry H (.call call) = [(.call call, reply)] := by
  refine Session.entry_eq ?_
  rw [Session.reply, Scheduler.reply, performed]
  exact result_eq

variable (h : Answerable H schema session entries) (coherent : Coherent [] session.scheduler)
  (performed : session.scheduler.perform H session.store call = .ok after)
  (turn : Turn H session.scheduler call tasks begun) (begun_coherent : Coherent tasks begun)
  (works : Works H session.store tasks begun after)

include h coherent performed turn begun_coherent works

private theorem owed_of_performed {past later : List Occurrence}
    (addressed : Addressed H [] session.scheduler past)
    (after_addressed : Addressed H [] after later) (path : Path) (digest : Digest) :
    owed? path (entries ++ session.entry H (.call call)) = some digest ↔
      after.InFlight ⟨path, digest⟩ := by
  have inFlight_iff (occurrence : Occurrence) :=
    @inFlight_iff_of_performed H session.store tasks session.scheduler after past occurrence call
      begun coherent addressed performed turn begun_coherent works
  have owed_iff := h.owed path digest
  cases call with
  | addSubTrie | addCode =>
      rw [inFlight_iff, entry_eq_of_performed performed rfl, owed?_append]
      simpa [owedAfter, messages] using owed_iff
  | processCode =>
      rw [inFlight_iff, entry_eq_of_performed performed rfl, owed?_append,
        messages_processCode performed]
      simpa [owedAfter] using owed_iff
  | processNode answered bytes =>
      rw [inFlight_iff, entry_eq_of_performed performed rfl, owed?_append,
        messages_processNode performed]
      by_cases same : answered = path
      · simp [owedAfter, same]
      · simpa [owedAfter, same, Ne.symm same] using owed_iff
  | missing max =>
      obtain ⟨occurrences, result_eq, messages_eq⟩ := result_missing coherent H session.store max
      have asked_iff (occurrence : Occurrence) : after.InFlight occurrence ↔
          occurrence ∈ occurrences ∨ session.scheduler.InFlight occurrence := by
        rw [inFlight_iff, messages_eq]
        simp [or_comm]
      rw [entry_eq_of_performed performed result_eq, owed?_append, owedAfter, asked_iff]
      -- The log names the first node that is handed out for the path, and there is no other.
      cases found : occurrences.find? fun node => node.path = path with
      | none =>
          have not_asked : (⟨path, digest⟩ : Occurrence) ∉ occurrences := fun asked => by
            simpa using List.find?_eq_none.mp found _ asked
          simpa [not_asked] using owed_iff
      | some node =>
          have node_mem := List.mem_of_find?_eq_some found
          obtain rfl : node.path = path := by simpa using List.find?_some found
          simp only [Option.map_some, Option.some_or, Option.some.injEq]
          constructor
          · rintro rfl
            exact .inl node_mem
          · intro asked
            have wellFormed := (works.coherent begun_coherent).counted.wellFormed
            exact after_addressed.inFlight_unique wellFormed
              ((asked_iff node).mpr (.inl node_mem)) ((asked_iff _).mpr asked)

private theorem owesCode_of_performed (digest : Digest) :
    TrieSync.owesCode digest (entries ++ session.entry H (.call call)) = true ↔
      digest ∈ after.codes.inFlight := by
  rw [mem_codes_inFlight_iff_of_performed coherent performed turn begun_coherent works]
  have owes_iff := h.owesCode digest
  cases call with
  | addSubTrie | addCode =>
      rw [entry_eq_of_performed performed rfl, owesCode_append]
      simpa [owesCodeAfter, messages] using owes_iff
  | processNode =>
      rw [entry_eq_of_performed performed rfl, owesCode_append, messages_processNode performed]
      simpa [owesCodeAfter] using owes_iff
  | processCode answered bytes =>
      rw [entry_eq_of_performed performed rfl, owesCode_append, messages_processCode performed]
      by_cases same : answered = digest
      · simp [owesCodeAfter, same]
      · simpa [owesCodeAfter, same, Ne.symm same] using owes_iff
  | missing max =>
      obtain ⟨occurrences, result_eq, messages_eq⟩ := result_missing coherent H session.store max
      rw [entry_eq_of_performed performed result_eq, owesCode_append, messages_eq]
      simp [owesCodeAfter, owes_iff, or_comm]

private theorem perform (no_trie : ∀ occurrence, call ≠ .addSubTrie occurrence) :
    Answerable H schema { session with scheduler := after }
      (entries ++ session.entry H (.call call)) := by
  obtain ⟨past, addressed⟩ := h.addressed
  obtain ⟨skipped, begun_addressed⟩ := addressed.turn coherent no_trie turn
  obtain ⟨more, after_addressed⟩ := begun_addressed.works begun_coherent works
  exact ⟨works.schema_eq.trans (turn.schema_eq.trans h.schema_eq), ⟨_, after_addressed⟩,
    begun_addressed.indexed_works begun_coherent works
      (addressed.indexed_turn coherent.counted.wellFormed turn h.indexed),
    owed_of_performed h coherent performed turn begun_coherent works addressed after_addressed,
    owesCode_of_performed h coherent performed turn begun_coherent works⟩

end perform

private theorem refuse {call : Call} {rejection : Rejection}
    (h : Answerable H schema session entries)
    (refused : session.scheduler.perform H session.store call = .error (.rejected rejection)) :
    Answerable H schema session (entries ++ session.entry H (.call call)) := by
  have entry_eq : session.entry H (.call call) = [(.call call, .rejected rejection)] :=
    Session.entry_eq (by rw [Session.reply, Scheduler.reply, refused])
  refine ⟨h.schema_eq, h.addressed, h.indexed, ?_, ?_⟩
  · intro path digest
    rw [entry_eq, owed?_append, ← h.owed]
    cases call <;> rfl
  · intro digest
    rw [entry_eq, owesCode_append, ← h.owesCode]
    cases call <;> rfl

private theorem write (h : Answerable H schema session entries)
    (not_call : ∀ call, action ≠ .call call) (step : Step H session action next) :
    Answerable H schema next (entries ++ session.entry H action) := by
  obtain ⟨reply, entry_eq, owed_eq, owesCode_eq⟩ := entry_of_write session not_call
  have noted : Answerable H schema session (entries ++ session.entry H action) := by
    refine ⟨h.schema_eq, h.addressed, h.indexed, ?_, ?_⟩
    · intro path digest
      rw [entry_eq, owed?_append, owed_eq, h.owed]
    · intro digest
      rw [entry_eq, owesCode_append, owesCode_eq, h.owesCode]
  cases step with
  | refuse | perform => exact absurd rfl (not_call _)
  | commitNothing => exact noted
  | commitRefused | rejectWrites =>
      exact ⟨noted.schema_eq, noted.addressed, noted.indexed, noted.owed, noted.owesCode⟩
  | commit =>
      obtain ⟨past, addressed⟩ := h.addressed
      exact ⟨noted.schema_eq, ⟨_, addressed.commit⟩, noted.indexed, noted.owed, noted.owesCode⟩

theorem of_log (no_trie : ∀ occurrence, .call (.addSubTrie occurrence) ∉ actions)
    (ran : log H schema start root actions = .ok (final, entries)) :
    Coherent [] final.scheduler ∧ Answerable H schema final entries := by
  obtain ⟨session, started, ran⟩ := bind_eq_ok.mp ran
  obtain ⟨scheduler, scheduler_eq, same⟩ := bind_eq_ok.mp started
  obtain rfl := Except.ok.inj same
  have works := works_of_ofRoot scheduler_eq
  have coherent := coherent_node (coherent_idle schema) ⟨.root, root⟩
  refine recorded_keeps (P := fun session entries =>
    Coherent [] session.scheduler ∧ Answerable H schema session entries) ?_
    ⟨works.coherent coherent, ?_⟩ ran
  · rintro session entries action next member - ⟨coherent, answerable⟩ stepped
    have tells := tells_of_eq_ok coherent stepped
    refine ⟨tells.step.coherent coherent, ?_⟩
    generalize session.tells H action = told at tells
    cases tells with
    | refuse refused => exact answerable.refuse refused
    | @perform call _ _ _ performed turn begun_coherent works =>
        refine answerable.perform coherent performed turn begun_coherent works ?_
        rintro occurrence rfl
        exact no_trie occurrence member
    | write not_call step => exact answerable.write not_call step
  · refine ⟨works.schema_eq, (Outstanding.ofRoot H schema root).works coherent works |>.addressed,
      indexed_ofRoot started, ?_, ?_⟩
    · intro path digest
      rw [works.inFlight_iff coherent]
      simp [owed?, InFlight, idle, RequestTable.live?, RequestTable.empty]
    · intro digest
      rw [works.codes_inFlight_eq coherent]
      simp [TrieSync.owesCode, idle, CodeTable.empty]

private theorem reply_of_decoded (h : Answerable H schema session entries)
    (coherent : Coherent [] session.scheduler) {occurrence : Occurrence}
    (inFlight : session.scheduler.InFlight occurrence) {bytes : Bytes} {references : References}
    (digest_eq : H bytes = occurrence.digest)
    (decoded : schema.references H occurrence.path bytes = .ok references)
    (acyclic : Acyclic H schema fun digest known =>
      session.scheduler.Knows digest known ∨ H bytes = digest ∧ known = bytes) :
    session.reply H (.call (.processNode occurrence.path bytes)) = .ok .done := by
  rw [Session.reply, Scheduler.reply]
  split
  · rfl
  · rename_i rejection refused
    exact absurd refused
      (perform_ne_rejected h.indexed inFlight digest_eq (h.schema_eq ▸ decoded) rejection)
  · rename_i fault faulted
    exact absurd faulted (perform_ne_fault session.store acyclic coherent
      ⟨h.schema_eq, .inl, by simp⟩ (by simp) fault)

/-- What is answered for bytes at a path follows from the log, unless some node leads back to
itself. -/
theorem reply_processNode (h : Answerable H schema session entries)
    (coherent : Coherent [] session.scheduler) (path : Path) (bytes : Bytes) :
    session.reply H (.call (.processNode path bytes)) =
        .ok (nodeReply H schema entries path bytes) ∨
      nodeReply H schema entries path bytes = .done ∧
        ¬ Acyclic H schema fun digest known =>
          session.scheduler.Knows digest known ∨ H bytes = digest ∧ known = bytes := by
  cases owed : owed? path entries with
  | none =>
      have nothing (digest : Digest) : ¬ session.scheduler.InFlight ⟨path, digest⟩ :=
        fun inFlight => by simp [(h.owed path digest).mpr inFlight] at owed
      have refused : session.scheduler.perform H session.store (.processNode path bytes) =
          .error (.rejected (.notRequested path)) := by
        rw [Scheduler.perform, processNode, inFlightAt?_eq_none coherent nothing]
        rfl
      rw [Session.reply, Scheduler.reply, refused, nodeReply, owed]
      exact .inl rfl
  | some digest =>
      have inFlight := (h.owed path digest).mp owed
      rw [nodeReply, owed]
      obtain ⟨id, request, id_mem, live, request_eq⟩ := id inFlight
      have found := h.indexed.inFlightAt?_eq id_mem live
      rw [request_eq] at found
      by_cases digest_eq : H bytes = digest
      · cases decoded : schema.references H path bytes with
        | error cause =>
            have refused : session.scheduler.perform H session.store (.processNode path bytes) =
                .error (.rejected (.undecodable path cause)) := by
              rw [Scheduler.perform, processNode, found]
              simp only [Except.mapError, bind, Except.bind, request_eq, digest_eq, if_true,
                h.schema_eq, decoded]
              rfl
            rw [Session.reply, Scheduler.reply, refused]
            simp [digest_eq]
        | ok references =>
            simp only [if_pos digest_eq, true_and]
            exact (em _).imp_left (h.reply_of_decoded coherent inFlight digest_eq decoded)
      · have refused : session.scheduler.perform H session.store (.processNode path bytes) =
            .error (.rejected (.nodeMismatch path digest (H bytes))) := by
          rw [Scheduler.perform, processNode, found]
          simp only [Except.mapError, bind, Except.bind, request_eq, digest_eq, if_false]
          rfl
        rw [Session.reply, Scheduler.reply, refused]
        simp [digest_eq]

theorem reply_processCode (h : Answerable H schema session entries)
    (coherent : Coherent [] session.scheduler) (digest : Digest) (bytes : Bytes) :
    session.reply H (.call (.processCode digest bytes)) =
      .ok (codeReply H entries digest bytes) := by
  have owes_iff := h.owesCode digest
  rw [Session.reply, Scheduler.reply, codeReply]
  cases owes : TrieSync.owesCode digest entries with
  | false =>
      have not_inFlight : digest ∉ session.scheduler.codes.inFlight := by
        simpa [owes] using owes_iff
      simp [Scheduler.perform, processCode, not_inFlight]
  | true =>
      have inFlight := owes_iff.mp owes
      by_cases digest_eq : H bytes = digest
      · obtain ⟨after, accepted⟩ := exists_processCode coherent inFlight digest_eq
        rw [Scheduler.perform, accepted]
        simp [result, digest_eq]
      · simp [Scheduler.perform, processCode, inFlight, digest_eq]

end Answerable

end Session

end TrieSync
