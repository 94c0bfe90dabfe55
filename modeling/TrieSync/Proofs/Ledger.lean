import TrieSync.Proofs.Chart
import TrieSync.Proofs.Completion
import TrieSync.Proofs.Sole

namespace TrieSync

open Scheduler

/-- Bytes that were accepted as a node have its digest. -/
def Accepted (H : Hash) (said : List Message) (digest : Digest) (bytes : Bytes) : Prop :=
  H bytes = digest ∧ ∃ path, .answeredNode path bytes ∈ said

/-- Every node that is known can be decoded wherever known nodes refer to it. -/
def Decodable (H : Hash) (schema : Schema) (known : Digest → Bytes → Prop) (root : Digest) : Prop :=
  ∀ {occurrence bytes}, Reachable H schema known root occurrence →
    known occurrence.digest bytes →
      ∃ references, schema.references H occurrence.path bytes = .ok references

/-- Bytes can be decoded at a place, and lead from there to some of the given nodes only. -/
def Schema.leadsWithin (schema : Schema) (H : Hash) (nodes : List Occurrence) (path : Path)
    (bytes : Bytes) : Bool :=
  match schema.references H path bytes with
  | .ok references => references.nodes.all fun node => node.digest = emptyRoot H ∨ node ∈ nodes
  | .error _ => false

/-- It is enough to look at finitely many nodes, among them the root, that lead to no others. -/
theorem decodable_of_leadsWithin {H : Hash} {schema : Schema} {said : List Message} {root : Digest}
    {nodes : List Occurrence} (begins : ⟨.root, root⟩ ∈ nodes)
    (within : ∀ node ∈ nodes, ∀ bytes ∈ said.filterMap Message.answer?, H bytes = node.digest →
      schema.leadsWithin H nodes node.path bytes = true) :
    Decodable H schema (Accepted H said) root := by
  have leadsWithin {node : Occurrence} {bytes : Bytes} (member : node ∈ nodes)
      (accepted : Accepted H said node.digest bytes) :
      ∃ references, schema.references H node.path bytes = .ok references ∧
        ∀ lower ∈ references.nodes, lower.digest ≠ emptyRoot H → lower ∈ nodes := by
    obtain ⟨digest_eq, path, answered⟩ := accepted
    have holds := within node member bytes (List.mem_filterMap.mpr ⟨_, answered, rfl⟩) digest_eq
    unfold Schema.leadsWithin at holds
    split at holds
    · rename_i references decoded
      refine ⟨references, decoded, fun lower lower_mem digest_ne => ?_⟩
      simpa [digest_ne] using List.all_eq_true.mp holds lower lower_mem
    · simp at holds
  have mem_of_reachable {node : Occurrence}
      (reachable : Reachable H schema (Accepted H said) root node) : node ∈ nodes := by
    obtain ⟨-, leads_to⟩ := reachable
    induction leads_to with
    | refl => exact begins
    | tail _ leads ih =>
        obtain ⟨bytes, references, accepted, decoded, lower_mem, digest_ne⟩ := leads
        obtain ⟨references', decoded', lower_within⟩ := leadsWithin ih accepted
        obtain rfl := Except.ok.inj (decoded.symm.trans decoded')
        exact lower_within _ lower_mem digest_ne
  intro node bytes reachable accepted
  obtain ⟨references, decoded, -⟩ := leadsWithin (mem_of_reachable reachable) accepted
  exact ⟨references, decoded⟩

namespace Scheduler

variable {H : Hash} {schema : Schema} {known : Digest → Bytes → Prop} {root : Digest}
  {store : Store} {task : Task} {tasks new : List Task} {before scheduler after start : Scheduler}
  {call : Call}

/-- The work of a call, in which nodes are newly asked for only if they were not tracked before. -/
structure Economy (H : Hash) (schema : Schema) (known : Digest → Bytes → Prop) (root : Digest)
    (store : Store) (before : Scheduler) (tasks : List Task) (scheduler : Scheduler) : Prop where
  addressed : ∃ past, Addressed H tasks scheduler past
  holds : Holds schema known tasks scheduler
  reaching : Reaching H schema known root tasks scheduler
  sole : Sole store tasks scheduler
  tracks : ∀ {digest}, before.Tracks digest → scheduler.Tracks digest
  seeks : ∀ {occurrence}, scheduler.Seeks occurrence →
    before.Seeks occurrence ∨ ¬ before.Tracks occurrence.digest

namespace Economy

theorem decodes (h : Economy H schema known root store before (task :: tasks) scheduler)
    (decodable : Decodable H schema known root) : Decodes H scheduler task := by
  rintro occurrence bytes parents rfl
  have reachable : Reachable H schema known root occurrence :=
    h.reaching.missing (List.mem_append_right _ (by simp [Task.opens]))
  rw [h.holds.schema_eq]
  exact decodable reachable (h.holds.placed List.mem_cons_self)

theorem step (h : Economy H schema known root store before (task :: tasks) scheduler)
    (decodable : Decodable H schema known root) (coherent : Coherent (task :: tasks) scheduler)
    (step : Step H store scheduler task new after) :
    Economy H schema known root store before (new ++ tasks) after := by
  have wellFormed := coherent.counted.wellFormed
  obtain ⟨past, addressed⟩ := h.addressed
  obtain ⟨skipped, after_addressed⟩ := addressed.step coherent step
  have decodes : Decodes H scheduler task := h.decodes decodable
  refine ⟨⟨_, after_addressed⟩, h.holds.step coherent step,
    h.reaching.shift h.holds.schema_eq (addressed.shift_of_step coherent h.holds step),
    h.sole.step wellFormed decodes step, fun tracks => step.tracks wellFormed (h.tracks tracks), ?_⟩
  intro occurrence sought
  rcases step.seeks_cases wellFormed sought with before | demands
  · exact h.seeks before
  · exact .inr fun tracks => (demands.fresh_of_decodes decodes).1 (h.tracks tracks)

theorem works (h : Economy H schema known root store before tasks scheduler)
    (decodable : Decodable H schema known root) (coherent : Coherent tasks scheduler)
    (works : Works H store tasks scheduler after) :
    Economy H schema known root store before [] after :=
  (works.keeps (Economy H schema known root store before)
    (fun coherent h step => h.step decodable coherent step) coherent h).2

theorem turn (addressed : ∃ past, Addressed H [] scheduler past)
    (holds : Holds schema known [] scheduler) (reaching : Reaching H schema known root [] scheduler)
    (sole : Sole store [] scheduler) (coherent : Coherent [] scheduler)
    (no_trie : ∀ occurrence, call ≠ .addSubTrie occurrence)
    (delivered : ∀ {path bytes}, call = .processNode path bytes → known (H bytes) bytes)
    (turn : Turn H scheduler call tasks start) :
    Economy H schema known root store scheduler tasks start := by
  obtain ⟨past, addressed⟩ := addressed
  obtain ⟨skipped, start_addressed⟩ := addressed.turn coherent no_trie turn
  exact ⟨⟨_, start_addressed⟩, holds.turn turn delivered,
    reaching.shift holds.schema_eq (Addressed.shift_of_turn coherent no_trie delivered turn),
    sole.turn turn, turn.tracks, fun seeks => .inl (turn.seeks seeks)⟩

end Economy

end Scheduler

namespace Session

variable {H : Hash} {schema : Schema} {known : Digest → Bytes → Prop} {root : Digest}
  {start : Store} {session next final : Session} {action : Action} {actions : List Action}
  {said told all : List Message} {occurrence : Occurrence}

section transcript

/-- What is said in an action. -/
def tells (session : Session) (H : Hash) : Action → List Message
  | .call call => session.scheduler.messages H session.store call
  | .commit _ | .rejectWrites _ => []

/-- The run of a new scheduler for a root, alone on a store, and all that is said in it. -/
def transcript (H : Hash) (schema : Schema) (start : Store) (root : Digest)
    (actions : List Action) : Except Fault (Session × List Message) := do
  let session ← ofRoot H start schema root
  actions.foldlM (recorded (fun session action => session.step H action)
    fun session action => session.tells H action) (session, [])

theorem map_transcript (H : Hash) (schema : Schema) (start : Store) (root : Digest)
    (actions : List Action) :
    (transcript H schema start root actions).map Prod.fst =
      runOfRoot H schema start root actions := by
  unfold transcript runOfRoot
  cases ofRoot H start schema root with
  | error fault => rfl
  | ok session => exact foldlM_recorded actions session []

/-- What an action makes of a session, and what is said in it. -/
inductive Tells (H : Hash) (session : Session) : Action → List Message → Session → Prop
  | refuse {call rejection}
      (refused : session.scheduler.perform H session.store call = .error (.rejected rejection)) :
      Tells H session (.call call) [] session
  | perform {call tasks start after}
      (performed : session.scheduler.perform H session.store call = .ok after)
      (turn : Turn H session.scheduler call tasks start) (coherent : Coherent tasks start)
      (works : Works H session.store tasks start after) :
      Tells H session (.call call) (session.scheduler.messages H session.store call)
        { session with scheduler := after }
  | write {action : Action} {next : Session} (not_call : ∀ call, action ≠ .call call)
      (step : Step H session action next) :
      Tells H session action [] next

theorem Tells.step (tells : Tells H session action told next) : Step H session action next := by
  cases tells with
  | refuse refused => exact .refuse refused
  | perform performed turn coherent works => exact .perform turn coherent works
  | write not_call step => exact step

theorem tells_of_eq_ok (coherent : Coherent [] session.scheduler)
    (stepped : session.step H action = .ok next) :
    Tells H session action (session.tells H action) next := by
  cases action with
  | commit | rejectWrites => exact .write (by simp) (step_of_eq_ok coherent stepped)
  | call call =>
      rcases perform_eq_ok_iff.mp stepped with ⟨rejection, refused, rfl⟩ | ⟨after, performed, rfl⟩
      · rw [tells, messages_of_refused coherent refused]
        exact .refuse refused
      · obtain ⟨tasks, start, turn, start_coherent, works⟩ := works_of_perform coherent performed
        exact .perform performed turn start_coherent works

theorem transcript_keeps {P : Session → List Message → Prop}
    (begins : ∀ {scheduler}, Works H start [.node none ⟨.root, root⟩] (idle schema) scheduler →
      P ⟨scheduler, start, fun _ => .empty, []⟩ [])
    (kept : ∀ {session said action told next}, action ∈ actions → said ++ told <+: all →
      Coherent [] session.scheduler → P session said → Tells H session action told next →
        P next (said ++ told))
    (ran : transcript H schema start root actions = .ok (final, all)) :
    Coherent [] final.scheduler ∧ P final all := by
  obtain ⟨session, started, ran⟩ := bind_eq_ok.mp ran
  obtain ⟨scheduler, scheduler_eq, same⟩ := bind_eq_ok.mp started
  obtain rfl := Except.ok.inj same
  have works := works_of_ofRoot scheduler_eq
  refine recorded_keeps (P := fun session said => Coherent [] session.scheduler ∧ P session said) ?_
    ⟨works.coherent (coherent_node (coherent_idle schema) _), begins works⟩ ran
  rintro session said action next member grows ⟨coherent, holds⟩ stepped
  have tells := tells_of_eq_ok coherent stepped
  exact ⟨tells.step.coherent coherent, kept member grows coherent holds tells⟩

theorem decodes_of_transcript (ran : transcript H schema start root actions = .ok (final, said))
    {path : Path} {bytes : Bytes} (answered : .answeredNode path bytes ∈ said) :
    ∃ references, schema.references H path bytes = .ok references := by
  refine (transcript_keeps (P := fun session said => session.scheduler.schema = schema ∧
    ∀ path bytes, .answeredNode path bytes ∈ said →
      ∃ references, schema.references H path bytes = .ok references) ?_ ?_ ran).2.2 _ _ answered
  · exact fun works => ⟨works.schema_eq, by simp⟩
  · rintro session said action told next - - coherent ⟨schema_eq, decodes⟩ tells
    cases tells with
    | refuse => exact ⟨schema_eq, by simpa using decodes⟩
    | @perform call tasks begun after performed turn begun_coherent works =>
        refine ⟨works.schema_eq.trans (turn.schema_eq.trans schema_eq), ?_⟩
        intro path bytes answered
        rcases List.mem_append.mp answered with before | now
        · exact decodes path bytes before
        · obtain rfl := call_eq_of_answeredNode coherent now
          cases turn with
          | processNode responsible inFlight live path_eq digest_eq decoded =>
              exact ⟨_, schema_eq ▸ decoded⟩
    | write not_call step =>
        rw [List.append_nil]
        refine ⟨?_, decodes⟩
        cases step with
        | refuse | perform => exact absurd rfl (not_call _)
        | commitNothing | commitRefused | commit | rejectWrites => exact schema_eq

theorem decodable_plain (ran : transcript H .plain start root actions = .ok (final, said)) :
    Decodable H .plain (Accepted H said) root := by
  rintro occurrence bytes - ⟨-, path, answered⟩
  obtain ⟨references, decoded⟩ := decodes_of_transcript ran answered
  obtain ⟨moved, decoded, -⟩ := Schema.references_plain_moved occurrence.path decoded
  exact ⟨moved, decoded⟩

end transcript

theorem Step.hasCode {digest : Digest} (step : Step H session action next)
    (has : HasCode session.store session.scheduler digest) :
    HasCode next.store next.scheduler digest := by
  cases step with
  | refuse | commitNothing | commitRefused | rejectWrites => exact has
  | perform turn coherent works =>
      exact (has.turn turn).works coherent works
  | commit =>
      refine .inl ((Store.hasCode_putAll _ _ _).mpr (has.stored_or_puts.imp_right ?_))
      exact fun ⟨bytes, put⟩ => ⟨bytes, List.mem_append_right _ put⟩

/-- What is asked for is not there yet, and what was written is stored and known. -/
structure Ledger (H : Hash) (schema : Schema) (known : Digest → Bytes → Prop) (root : Digest)
    (start : Store) (session : Session) : Prop where
  addressed : ∃ past, Addressed H [] session.scheduler (past ++ session.putNodes)
  holds : Holds schema known [] session.scheduler
  reaching : Reaching H schema known root [] session.scheduler
  sole : Sole session.store [] session.scheduler
  codes : SoleCodes session.store session.scheduler
  accounted : Accounted start session
  grown : ∀ {occurrence}, start.hasNode occurrence = true → session.store.hasNode occurrence = true
  put : ∀ {occurrence}, occurrence ∈ session.putNodes →
    session.store.hasNode occurrence = true ∧ ∃ bytes, known occurrence.digest bytes
  batched : ∀ {number digest bytes}, .code digest bytes ∈ (session.batches number).puts →
    HasCode session.store session.scheduler digest

namespace Ledger

theorem economy (h : Ledger H schema known root start session) {call : Call} {tasks : List Task}
    {begun after : Scheduler} (decodable : Decodable H schema known root)
    (coherent : Coherent [] session.scheduler)
    (no_trie : ∀ occurrence, call ≠ .addSubTrie occurrence)
    (delivered : ∀ {path bytes}, call = .processNode path bytes → known (H bytes) bytes)
    (turn : Turn H session.scheduler call tasks begun) (begun_coherent : Coherent tasks begun)
    (works : Works H session.store tasks begun after) :
    Economy H schema known root session.store session.scheduler [] after := by
  obtain ⟨past, addressed⟩ := h.addressed
  have begins : Economy H schema known root session.store session.scheduler tasks begun :=
    .turn ⟨_, addressed⟩ h.holds h.reaching h.sole coherent no_trie delivered turn
  exact begins.works decodable begun_coherent works

section commit

variable {batch : Nat} {bytes : Bytes} {digest : Digest}

private theorem hasNode_commit (h : Ledger H schema known root start session)
    (held : (session.store.putAll
      ((session.batches batch).append session.scheduler.staging.puts).puts).hasNode occurrence =
        true) :
    session.store.hasNode occurrence = true ∨ session.scheduler.Known occurrence.digest := by
  have of_staged {node : Occurrence}
      (staged : session.scheduler.staging.digestAt? node.path = some node.digest)
      (key_eq : session.store.key node = session.store.key occurrence) :
      session.scheduler.Known occurrence.digest := by
    obtain ⟨known, staged⟩ := Option.isSome_iff_exists.mp (h.sole.staged staged)
    exact ⟨known, .inl (Store.digest_eq_of_key_eq key_eq ▸ staged)⟩
  rcases (Store.hasNode_putAll _ _ _).mp held with held | ⟨node, bytes, put, key_eq⟩
  · exact .inl held
  · rcases List.mem_append.mp put with batched | staged
    · rcases h.accounted.batched batched with written | staged
      · have stored := (h.put written).1
        rw [Store.hasNode, key_eq] at stored
        exact .inl stored
      · exact .inr (of_staged staged key_eq)
    · exact .inr (of_staged (Staging.digestAt?_of_mem_puts staged) key_eq)

private theorem hasCode_commit (h : Ledger H schema known root start session)
    (held : (session.store.putAll
      ((session.batches batch).append session.scheduler.staging.puts).puts).hasCode digest =
        true) :
    session.store.hasCode digest = true ∨ session.scheduler.staging.hasCode digest = true := by
  rcases (Store.hasCode_putAll _ _ _).mp held with held | ⟨bytes, put⟩
  · exact .inl held
  · rcases List.mem_append.mp put with batched | staged
    · exact h.batched batched
    · exact .inr (Staging.hasCode_of_mem_puts staged)

end commit

theorem ofRoot {scheduler : Scheduler} (decodable : Decodable H schema known root)
    (works : Works H start [.node none ⟨.root, root⟩] (idle schema) scheduler) :
    Ledger H schema known root start ⟨scheduler, start, fun _ => .empty, []⟩ := by
  have coherent := coherent_node (coherent_idle schema) ⟨.root, root⟩
  have turn : Turn H (idle schema) (.addSubTrie ⟨.root, root⟩) [.node none ⟨.root, root⟩]
      (idle schema) := .addSubTrie
  have begins : Economy H schema known root start (idle schema) [.node none ⟨.root, root⟩]
      (idle schema) :=
    { addressed := ⟨_, .ofRoot H schema root⟩
      holds := (holds_idle schema known).turn turn (by simp)
      reaching := .ofRoot H schema known root
      sole := .ofRoot start schema root
      tracks := id
      seeks := .inl }
  have economy := begins.works decodable coherent works
  obtain ⟨past, addressed⟩ := economy.addressed
  exact
    { addressed := ⟨past, by simpa [putNodes] using addressed⟩
      holds := economy.holds
      reaching := economy.reaching
      sole := economy.sole
      codes := (SoleCodes.ofRoot start schema).works coherent works
      accounted := ⟨rfl, .inl, by simp [Batch.empty]⟩
      grown := id
      put := by simp [putNodes]
      batched := by simp [Batch.empty] }

theorem tells (h : Ledger H schema known root start session)
    (tells : Tells H session action told next) (decodable : Decodable H schema known root)
    (coherent : Coherent [] session.scheduler)
    (no_trie : ∀ occurrence, action ≠ .call (.addSubTrie occurrence))
    (delivered : ∀ {path bytes}, .answeredNode path bytes ∈ told → known (H bytes) bytes) :
    Ledger H schema known root start next := by
  obtain ⟨past, addressed⟩ := h.addressed
  have next_addressed := tells.step.addressed coherent no_trie addressed
  have accounted := tells.step.accounted coherent addressed no_trie h.accounted
  have tells_step := tells.step
  cases tells with
  | refuse => exact h
  | @perform call tasks begun after performed turn begun_coherent works =>
      have economy := h.economy decodable coherent
        (fun occurrence same => no_trie occurrence (congrArg Action.call same)) ?_ turn
        begun_coherent works
      · refine ⟨next_addressed, economy.holds, economy.reaching, economy.sole,
          (h.codes.turn turn).works begun_coherent works, accounted, h.grown, h.put, ?_⟩
        exact fun member => tells_step.hasCode (h.batched member)
      · rintro path bytes rfl
        exact delivered (by rw [messages_processNode performed]; exact List.mem_singleton_self _)
  | write not_call step =>
      cases step with
      | refuse | perform => exact absurd rfl (not_call _)
      | commitNothing => exact h
      | @commitRefused batch rejecting =>
          refine ⟨next_addressed, h.holds, h.reaching, h.sole, h.codes, accounted, h.grown, h.put, ?_⟩
          intro number digest bytes member
          rcases Batch.mem_filled_cases member with batched | ⟨-, staged⟩
          · exact h.batched batched
          · exact .inr (Staging.hasCode_of_mem_puts staged)
      | @commit batch accepting =>
          refine ⟨next_addressed, h.holds.commit, h.reaching.commit, h.sole.commit h.hasNode_commit,
            h.codes.commit h.hasCode_commit, accounted, ?_, ?_, ?_⟩
          · exact fun held => (Store.hasNode_putAll _ _ _).mpr (.inl (h.grown held))
          · intro occurrence member
            simp only [putNodes, List.filterMap_append, List.mem_append] at member
            rcases member with written | staged
            · obtain ⟨stored, known⟩ := h.put written
              exact ⟨(Store.hasNode_putAll _ _ _).mpr (.inl stored), known⟩
            · obtain ⟨bytes, put⟩ := Put.mem_occurrences_iff.mp staged
              obtain ⟨-, known⟩ := h.reaching.bodies
                (Addressed.mem_bodies_of_staged (Staging.node_mem_puts_iff.mp put))
              refine ⟨(Store.hasNode_putAll _ _ _).mpr (.inr ⟨occurrence, bytes, ?_, rfl⟩), bytes,
                known⟩
              exact List.mem_append_right _ put
          · exact fun member => tells_step.hasCode (h.batched (Batch.mem_of_emptied member).2)
      | rejectWrites =>
          exact ⟨next_addressed, h.holds, h.reaching,
            ⟨h.sole.alone, h.sole.notStaged, h.sole.notStored, h.sole.placed, h.sole.staged⟩,
            ⟨h.codes.wellFormed, h.codes.notStaged, h.codes.notStored⟩, accounted, h.grown, h.put,
            h.batched⟩

end Ledger

end Session

end TrieSync
