import TrieSync.Proofs.Session

namespace TrieSync

/-- What a scheduler asks for, and an answer that it accepts. -/
inductive Message
  | askedNode (occurrence : Occurrence)
  | askedCode (digest : Digest)
  | answeredNode (path : Path) (bytes : Bytes)
  | answeredCode (digest : Digest) (bytes : Bytes)
deriving DecidableEq

namespace Message

/-- The node that is asked for. -/
def node? : Message → Option Occurrence
  | askedNode occurrence => some occurrence
  | _ => none

/-- The code that is asked for. -/
def code? : Message → Option Digest
  | askedCode digest => some digest
  | _ => none

/-- The bytes that are accepted as a node. -/
def answer? : Message → Option Bytes
  | answeredNode _ bytes => some bytes
  | _ => none

theorem mem_nodes_iff {messages : List Message} {occurrence : Occurrence} :
    occurrence ∈ messages.filterMap node? ↔ .askedNode occurrence ∈ messages := by
  rw [List.mem_filterMap]
  constructor
  · rintro ⟨message, member, node_eq⟩
    cases message <;> simp_all [node?]
  · exact fun member => ⟨_, member, rfl⟩

theorem mem_codes_iff {messages : List Message} {digest : Digest} :
    digest ∈ messages.filterMap code? ↔ .askedCode digest ∈ messages := by
  rw [List.mem_filterMap]
  constructor
  · rintro ⟨message, member, code_eq⟩
    cases message <;> simp_all [code?]
  · exact fun member => ⟨_, member, rfl⟩

end Message

/-- One step of a run, which goes on record. -/
def recorded {σ α μ : Type} (step : σ → α → Except Fault σ) (tells : σ → α → List μ)
    (run : σ × List μ) (action : α) : Except Fault (σ × List μ) := do
  return (← step run.1 action, run.2 ++ tells run.1 action)

section recorded

variable {σ α μ : Type} {step : σ → α → Except Fault σ} {tells : σ → α → List μ}
  {state last : σ} {said all : List μ} {actions : List α}

theorem record_grows
    (ran : actions.foldlM (recorded step tells) (state, said) = .ok (last, all)) : said <+: all := by
  refine foldlM_keeps (I := fun _ run => said <+: run.2) ?_ (List.prefix_refl said) ran
  rintro action rest ⟨state, earlier⟩ run grown noted
  obtain ⟨next, -, noted⟩ := bind_eq_ok.mp noted
  obtain rfl := Except.ok.inj noted
  exact grown.trans (List.prefix_append _ _)

theorem recorded_keeps {P : σ → List μ → Prop}
    (kept : ∀ {state said action next}, action ∈ actions → said ++ tells state action <+: all →
      P state said → step state action = .ok next → P next (said ++ tells state action))
    (holds : P state said)
    (ran : actions.foldlM (recorded step tells) (state, said) = .ok (last, all)) : P last all := by
  induction actions generalizing state said with
  | nil =>
      obtain ⟨rfl, rfl⟩ := Prod.mk.inj (Except.ok.inj ran)
      exact holds
  | cons action actions ih =>
      rw [List.foldlM_cons, recorded] at ran
      cases stepped : step state action with
      | error fault => simp [stepped, bind, Except.bind] at ran
      | ok next =>
          rw [stepped] at ran
          exact ih (fun member => kept (List.mem_cons_of_mem _ member))
            (kept List.mem_cons_self (record_grows ran) holds stepped) ran

theorem foldlM_recorded (actions : List α) (state : σ) (said : List μ) :
    (actions.foldlM (recorded step tells) (state, said)).map Prod.fst =
      actions.foldlM step state := by
  induction actions generalizing state said with
  | nil => rfl
  | cons action actions ih =>
      rw [List.foldlM_cons, List.foldlM_cons, recorded]
      cases stepped : step state action with
      | error fault => rfl
      | ok next => exact ih next _

end recorded

namespace Scheduler

variable {H : Hash} {store : Store} {scheduler after : Scheduler}

/-- What is said in a call. Nothing is said in one that is refused. -/
def messages (scheduler : Scheduler) (H : Hash) (store : Store) : Call → List Message
  | .missing max =>
      match scheduler.missing max with
      | .ok (missing, _) => missing.nodes.map .askedNode ++ missing.codes.map .askedCode
      | .error _ => []
  | .processNode path bytes =>
      match scheduler.processNode H store path bytes with
      | .ok _ => [.answeredNode path bytes]
      | .error _ => []
  | .processCode digest bytes =>
      match scheduler.processCode H digest bytes with
      | .ok _ => [.answeredCode digest bytes]
      | .error _ => []
  | .addSubTrie _ => []
  | .addCode _ _ => []

theorem messages_missing (coherent : Coherent [] scheduler) (H : Hash) (store : Store) (max : Nat) :
    ∃ occurrences, scheduler.missing max = .ok (⟨occurrences, (scheduler.codes.handOut max).1⟩,
        { scheduler with
          requests := scheduler.requests.handedOut max
          codes := (scheduler.codes.handOut max).2 }) ∧
      occurrences.map Occurrence.path = (scheduler.requests.chosen max).map Prod.fst ∧
      (∀ occurrence, occurrence ∈ occurrences ↔
        scheduler.requests.Offered (scheduler.requests.chosen max) occurrence) ∧
      scheduler.messages H store (.missing max) =
        occurrences.map .askedNode ++ (scheduler.codes.handOut max).1.map .askedCode := by
  obtain ⟨occurrences, handOut_eq, paths_eq, offered_iff⟩ :=
    RequestTable.handOut_offered coherent.counted.wellFormed max
  have missing_eq : scheduler.missing max = .ok (⟨occurrences, (scheduler.codes.handOut max).1⟩,
      { scheduler with
        requests := scheduler.requests.handedOut max
        codes := (scheduler.codes.handOut max).2 }) := by
    rw [missing, handOut_eq]
    rfl
  exact ⟨occurrences, missing_eq, paths_eq, offered_iff, by simp only [messages, missing_eq]⟩

theorem messages_asked (coherent : Coherent [] scheduler) (H : Hash) (store : Store) (call : Call) :
    (∃ max occurrences, call = .missing max ∧
      (scheduler.messages H store call).filterMap Message.node? = occurrences ∧
      occurrences.map Occurrence.path = (scheduler.requests.chosen max).map Prod.fst ∧
      (∀ occurrence ∈ occurrences,
        scheduler.requests.Offered (scheduler.requests.chosen max) occurrence) ∧
      (scheduler.messages H store call).filterMap Message.code? =
        (scheduler.codes.handOut max).1) ∨
    (scheduler.messages H store call).filterMap Message.node? = [] ∧
      (scheduler.messages H store call).filterMap Message.code? = [] := by
  cases call with
  | addSubTrie | addCode => exact .inr ⟨rfl, rfl⟩
  | missing max =>
      obtain ⟨occurrences, -, paths_eq, offered_iff, messages_eq⟩ :=
        messages_missing coherent H store max
      refine .inl ⟨max, occurrences, rfl, ?_, paths_eq, fun _ => (offered_iff _).mp, ?_⟩
      all_goals
        rw [messages_eq, List.filterMap_append, List.filterMap_map, List.filterMap_map]
        simp [Function.comp_def, Message.node?, Message.code?]
  | processNode | processCode =>
      right
      rw [messages]
      split <;> exact ⟨rfl, rfl⟩

theorem messages_cases {call : Call} {message : Message} (coherent : Coherent [] scheduler)
    (member : message ∈ scheduler.messages H store call) :
    (∃ occurrence, message = .askedNode occurrence) ∨ (∃ digest, message = .askedCode digest) ∨
      (∃ path bytes, call = .processNode path bytes ∧ message = .answeredNode path bytes) ∨
      ∃ digest bytes, call = .processCode digest bytes ∧ message = .answeredCode digest bytes := by
  cases call with
  | addSubTrie | addCode => simp [messages] at member
  | missing max =>
      obtain ⟨occurrences, -, -, -, messages_eq⟩ := messages_missing coherent H store max
      rw [messages_eq, List.mem_append, List.mem_map, List.mem_map] at member
      rcases member with ⟨occurrence, -, rfl⟩ | ⟨digest, -, rfl⟩
      · exact .inl ⟨occurrence, rfl⟩
      · exact .inr (.inl ⟨digest, rfl⟩)
  | processNode path bytes | processCode digest bytes =>
      rw [messages] at member
      split at member <;> simp_all

theorem call_eq_of_answeredNode {call : Call} {path : Path} {bytes : Bytes}
    (coherent : Coherent [] scheduler)
    (answered : .answeredNode path bytes ∈ scheduler.messages H store call) :
    call = .processNode path bytes := by
  simpa [eq_comm, and_comm] using messages_cases coherent answered

theorem call_eq_of_answeredCode {call : Call} {digest : Digest} {bytes : Bytes}
    (coherent : Coherent [] scheduler)
    (answered : .answeredCode digest bytes ∈ scheduler.messages H store call) :
    call = .processCode digest bytes := by
  simpa [eq_comm, and_comm] using messages_cases coherent answered

theorem messages_processNode {path : Path} {bytes : Bytes}
    (performed : scheduler.perform H store (.processNode path bytes) = .ok after) :
    scheduler.messages H store (.processNode path bytes) = [.answeredNode path bytes] := by
  rw [perform] at performed
  simp only [messages, performed]

theorem messages_processCode {digest : Digest} {bytes : Bytes}
    (performed : scheduler.perform H store (.processCode digest bytes) = .ok after) :
    scheduler.messages H store (.processCode digest bytes) = [.answeredCode digest bytes] := by
  rw [perform] at performed
  simp only [messages, performed]

theorem messages_of_refused {call : Call} {rejection : Rejection}
    (coherent : Coherent [] scheduler)
    (refused : scheduler.perform H store call = .error (.rejected rejection)) :
    scheduler.messages H store call = [] := by
  cases call with
  | addSubTrie | addCode => rfl
  | missing max =>
      obtain ⟨occurrences, missing_eq, -⟩ := messages_missing coherent H store max
      simp [perform, missing_eq, Except.map, Except.mapError] at refused
  | processNode | processCode =>
      rw [perform] at refused
      simp only [messages, refused]

end Scheduler

/-- What happens to a scheduler while the store may be any: it is called, or it commits to the store
through a batch. -/
inductive Deed
  | call (store : Store) (call : Call)
  | commit (store : Store) (batch : Batch)

namespace Scheduler

variable {H : Hash} {store : Store} {schema : Schema} {root : Digest} {scheduler after : Scheduler}
  {deed : Deed} {deeds : List Deed} {said : List Message}

/-- A call that is refused changes nothing. -/
def act (scheduler : Scheduler) (H : Hash) : Deed → Except Fault Scheduler
  | .call store call =>
      match scheduler.perform H store call with
      | .ok after => .ok after
      | .error (.rejected _) => .ok scheduler
      | .error (.fault fault) => .error fault
  | .commit store batch => .ok (scheduler.commit batch store).scheduler

def tells (scheduler : Scheduler) (H : Hash) : Deed → List Message
  | .call store call => scheduler.messages H store call
  | .commit _ _ => []

/-- The life of a scheduler for a root, and all that is said in it. -/
def life (H : Hash) (store : Store) (schema : Schema) (root : Digest) (deeds : List Deed) :
    Except Fault (Scheduler × List Message) := do
  let scheduler ← ofRoot H store schema root
  deeds.foldlM (recorded (fun scheduler deed => scheduler.act H deed)
    fun scheduler deed => scheduler.tells H deed) (scheduler, [])

theorem act_cases (acted : scheduler.act H deed = .ok after) :
    (∃ store call, deed = .call store call ∧ scheduler.perform H store call = .ok after) ∨
      (∃ store call rejection, deed = .call store call ∧
        scheduler.perform H store call = .error (.rejected rejection) ∧ after = scheduler) ∨
      ∃ store batch, deed = .commit store batch ∧
        after = (scheduler.commit batch store).scheduler := by
  cases deed with
  | call store call =>
      rw [act] at acted
      split at acted
      · rename_i performed
        obtain rfl := Except.ok.inj acted
        exact .inl ⟨store, call, rfl, performed⟩
      · rename_i rejection refused
        exact .inr (.inl ⟨store, call, rejection, rfl, refused, (Except.ok.inj acted).symm⟩)
      · simp at acted
  | commit store batch => exact .inr (.inr ⟨store, batch, rfl, (Except.ok.inj acted).symm⟩)

/-- What a deed makes of a scheduler, and what is said. -/
inductive Acts (H : Hash) (scheduler : Scheduler) : Deed → List Message → Scheduler → Prop
  | refuse {store call} : Acts H scheduler (.call store call) [] scheduler
  | perform {store call tasks start after}
      (performed : scheduler.perform H store call = .ok after)
      (turn : Turn H scheduler call tasks start) (coherent : Coherent tasks start)
      (works : Works H store tasks start after) :
      Acts H scheduler (.call store call) (scheduler.messages H store call) after
  | commitNothing {store batch} : Acts H scheduler (.commit store batch) [] scheduler
  | commit {store batch} :
      Acts H scheduler (.commit store batch) [] { scheduler with staging := .empty }

theorem acts_of_eq_ok (coherent : Coherent [] scheduler) (acted : scheduler.act H deed = .ok after) :
    Acts H scheduler deed (scheduler.tells H deed) after := by
  obtain ⟨store, call, rfl, performed⟩ | ⟨store, call, rejection, rfl, refused, rfl⟩ |
    ⟨store, batch, rfl, rfl⟩ := act_cases acted
  · obtain ⟨tasks, start, turn, start_coherent, works⟩ := works_of_perform coherent performed
    exact .perform performed turn start_coherent works
  · simp only [tells]
    rw [messages_of_refused coherent refused]
    exact .refuse
  · simp only [tells, Scheduler.commit]
    split
    · exact .commitNothing
    · split
      · exact .commitNothing
      · exact .commit

theorem Acts.coherent (acts : Acts H scheduler deed said after) (h : Coherent [] scheduler) :
    Coherent [] after := by
  cases acts with
  | refuse | commitNothing => exact h
  | perform performed turn coherent works => exact works.coherent coherent
  | commit =>
      exact ⟨⟨h.counted.wellFormed, h.counted.live_of_mem, h.counted.pending_eq⟩, trivial⟩

theorem life_keeps {P : Scheduler → List Message → Prop}
    (start : ∀ {scheduler}, Works H store [.node none ⟨.root, root⟩] (idle schema) scheduler →
      P scheduler [])
    (kept : ∀ {scheduler all deed said after}, deed ∈ deeds → Coherent [] scheduler →
      P scheduler all → Acts H scheduler deed said after → P after (all ++ said))
    (lived : life H store schema root deeds = .ok (after, said)) :
    Coherent [] after ∧ P after said := by
  unfold life at lived
  cases started : ofRoot H store schema root with
  | error fault => simp [started, bind, Except.bind] at lived
  | ok scheduler =>
      rw [started] at lived
      have works := works_of_ofRoot started
      refine recorded_keeps (P := fun scheduler said => Coherent [] scheduler ∧ P scheduler said) ?_
        ⟨works.coherent (coherent_node (coherent_idle schema) _), start works⟩ lived
      rintro scheduler all deed after member - ⟨coherent, holds⟩ acted
      have acts := acts_of_eq_ok coherent acted
      exact ⟨acts.coherent coherent, kept member coherent holds acts⟩

end Scheduler

end TrieSync
