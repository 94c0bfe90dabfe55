import Mathlib.Data.List.Induction
import TrieSync.Hash.Sha256
import TrieSync.Proofs.Ledger

namespace TrieSync

open Scheduler

namespace Session

variable {H : Hash} {schema : Schema} {known : Digest → Bytes → Prop} {root : Digest}
  {start : Store} {session next final : Session} {action : Action} {actions : List Action}
  {said told all : List Message} {occurrence : Occurrence}

/-- A node was asked for and is still to be answered, is at its place, or was written there. -/
def Served (session : Session) (occurrence : Occurrence) : Prop :=
  session.scheduler.InFlight occurrence ∨
    occurrence ∈ session.scheduler.bodies.map Prod.fst ∨ occurrence ∈ session.putNodes

private theorem Ledger.apart (h : Ledger H schema known root start session)
    (coherent : Coherent [] session.scheduler) {entries : List (Path × RequestId)}
    (queued : ∀ {path id}, (path, id) ∈ entries → session.scheduler.requests.queue[path]? = some id)
    {other : Occurrence} (served : session.Served other)
    (offered : session.scheduler.requests.Offered entries occurrence) :
    other.path ≠ occurrence.path ∧ start.key other ≠ start.key occurrence := by
  have wellFormed := coherent.counted.wellFormed
  obtain ⟨past, addressed⟩ := h.addressed
  obtain ⟨id, request, entry_mem, live, unknown, rfl⟩ := offered
  have missing : request.occurrence ∈ missingNodes H [] session.scheduler :=
    Addressed.mem_missingNodes live unknown request.occurrence_mem_occurrences
  have apart_of_placed
      (placed : other ∈ placedNodes session.scheduler (past ++ session.putNodes)) :
      other.path ≠ request.occurrence.path := by
    have nodup := addressed.layout.nodup
    rw [List.map_append] at nodup
    intro same
    exact List.disjoint_of_nodup_append nodup (List.mem_map_of_mem missing)
      (same ▸ List.mem_map_of_mem placed)
  have digest_eq (same : start.key other = start.key request.occurrence) :
      other.digest = request.occurrence.digest := Store.digest_eq_of_key_eq same
  rcases served with ⟨asked, current, inFlight, current_live, rfl⟩ | placed | written
  · have id_ne : asked ≠ id := by
      rintro rfl
      exact wellFormed.notQueued_of_inFlight inFlight _ (queued entry_mem)
    constructor
    · intro same
      exact id_ne (addressed.id_eq_of_mem_paths wellFormed current_live live List.mem_cons_self
        (same ▸ List.mem_cons_self))
    · intro same
      exact id_ne (h.sole.alone live unknown current_live (digest_eq same)).symm
  · obtain ⟨⟨_, bytes⟩, body, rfl⟩ := List.mem_map.mp placed
    refine ⟨apart_of_placed (List.mem_append_left _ placed), fun same => ?_⟩
    refine h.sole.not_known live unknown ?_
    rw [← digest_eq same]
    exact h.sole.known_of_mem_bodies body
  · refine ⟨apart_of_placed (List.mem_append_right _ (List.mem_append_right _ written)), ?_⟩
    intro same
    have stored := (h.put written).1
    rw [← Store.key_eq_of_keying_eq h.accounted.keying_eq,
      ← Store.key_eq_of_keying_eq h.accounted.keying_eq] at same
    rw [Store.hasNode, same, ← Store.hasNode, h.sole.notStored live unknown] at stored
    simp at stored

/-- No node was asked for twice, or while it was stored. -/
structure Recorded (H : Hash) (schema : Schema) (known : Digest → Bytes → Prop) (root : Digest)
    (start : Store) (session : Session) (said : List Message) : Prop where
  asked : ∀ {occurrence}, session.scheduler.InFlight occurrence → .askedNode occurrence ∈ said
  served : ∀ {occurrence}, .askedNode occurrence ∈ said → session.Served occurrence
  reached : ∀ {occurrence}, .askedNode occurrence ∈ said →
    Reachable H schema known root occurrence ∧ start.hasNode occurrence = false
  answered : ∀ {path bytes}, .answeredNode path bytes ∈ said →
    ∃ occurrence, .askedNode occurrence ∈ said ∧ occurrence.digest = H bytes
  paths_once : ((said.filterMap Message.node?).map Occurrence.path).Nodup
  keys_once : ((said.filterMap Message.node?).map start.key).Nodup

namespace Recorded

private theorem write (h : Recorded H schema known root start session said)
    (not_call : ∀ call, action ≠ .call call) (step : Step H session action next) :
    Recorded H schema known root start next said := by
  have inFlight_eq : next.scheduler.InFlight = session.scheduler.InFlight := by
    cases step with
    | refuse | perform => exact absurd rfl (not_call _)
    | commitNothing | commitRefused | commit | rejectWrites => rfl
  refine ⟨by rw [inFlight_eq]; exact h.asked, ?_, h.reached, h.answered, h.paths_once, h.keys_once⟩
  intro occurrence member
  have served := h.served member
  unfold Served at served ⊢
  rw [inFlight_eq]
  refine served.imp_right ?_
  cases step with
  | refuse | perform => exact absurd rfl (not_call _)
  | commitNothing | commitRefused | rejectWrites => exact id
  | commit =>
      simp only [putNodes, List.filterMap_append, List.mem_append]
      rintro (placed | written)
      · obtain ⟨⟨_, bytes⟩, body, rfl⟩ := List.mem_map.mp placed
        rcases mem_bodies_iff.mp body with fetched | staged
        · exact .inl (List.mem_map_of_mem (mem_bodies_iff.mpr (.inl fetched)))
        · exact .inr (.inr
            (Put.mem_occurrences_iff.mpr ⟨bytes, Staging.node_mem_puts_iff.mpr staged⟩))
      · exact .inr (.inl written)

section perform

variable {call : Call} {tasks : List Task} {begun after : Scheduler}

private theorem placed_of_answered {past : List Occurrence}
    (addressed : Addressed H [] session.scheduler past) (coherent : Coherent [] session.scheduler)
    (no_trie : ∀ occurrence, call ≠ .addSubTrie occurrence)
    (turn : Turn H session.scheduler call tasks begun) (begun_coherent : Coherent tasks begun)
    (works : Works H session.store tasks begun after) {bytes : Bytes}
    (call_eq : call = .processNode occurrence.path bytes)
    (inFlight : session.scheduler.InFlight occurrence) :
    occurrence ∈ after.bodies.map Prod.fst := by
  have wellFormed := coherent.counted.wellFormed
  obtain ⟨skipped, begun_addressed⟩ := addressed.turn coherent no_trie turn
  have grows := (begun_addressed.works_subset begun_coherent works).1
  obtain ⟨id, request, request_inFlight, live, rfl⟩ := inFlight
  cases turn with
  | addSubTrie | addCode | missing | processCode => simp at call_eq
  | @processNode path known answered current references responsible current_inFlight current_live
      path_eq =>
      obtain ⟨path_eq', rfl⟩ := Call.processNode.inj call_eq
      have unknown := wellFormed.unknown_of_inFlight current_inFlight current_live
      obtain rfl := addressed.id_eq_of_mem_paths wellFormed current_live live
        (List.mem_cons_self) (by rw [path_eq, path_eq']; exact List.mem_cons_self)
      obtain rfl := Option.some.inj (current_live.symm.trans live)
      obtain ⟨-, bodies_perm⟩ := Addressed.received_perm (H := H) [] current_live unknown known
      refine List.mem_map.mpr ⟨(current.occurrence, known), grows ?_, rfl⟩
      exact (bodies_awaited_perm _ _).symm.subset (bodies_perm.symm.subset List.mem_cons_self)

private theorem asked_once (ledger : Ledger H schema known root start session)
    (coherent : Coherent [] session.scheduler) (call : Call) :
    let asked := (session.scheduler.messages H session.store call).filterMap Message.node?
    (asked.map Occurrence.path).Nodup ∧ (asked.map start.key).Nodup ∧
      ∀ occurrence ∈ asked, ∃ max, session.scheduler.requests.Offered
        (session.scheduler.requests.chosen max) occurrence := by
  intro asked
  rcases messages_asked coherent H session.store call with
    ⟨max, occurrences, -, nodes_eq, paths_eq, offered, -⟩ | ⟨nodes_eq, -⟩
  · have nodup : (occurrences.map Occurrence.path).Nodup :=
      paths_eq ▸ session.scheduler.requests.nodup_chosen max
    rw [show asked = occurrences from nodes_eq]
    refine ⟨nodup, nodup.of_map.map_on ?_, fun occurrence member => ⟨max, offered _ member⟩⟩
    intro left left_mem right right_mem key_eq
    obtain ⟨id, request, -, live, unknown, rfl⟩ := offered left left_mem
    obtain ⟨other, current, -, current_live, -, rfl⟩ := offered right right_mem
    obtain rfl := ledger.sole.alone live unknown current_live
      (Store.digest_eq_of_key_eq key_eq).symm
    rw [Option.some.inj (live.symm.trans current_live)]
  · rw [show asked = [] from nodes_eq]
    simp

private theorem nodup_map_append {α β : Type} {f : α → β} {left right : List α}
    (left_once : (left.map f).Nodup) (right_once : (right.map f).Nodup)
    (apart : ∀ first ∈ left, ∀ second ∈ right, f first ≠ f second) :
    ((left ++ right).map f).Nodup := by
  rw [List.map_append, List.nodup_append]
  refine ⟨left_once, right_once, ?_⟩
  intro _ left_mem _ right_mem
  obtain ⟨first, first_mem, rfl⟩ := List.mem_map.mp left_mem
  obtain ⟨second, second_mem, rfl⟩ := List.mem_map.mp right_mem
  exact apart first first_mem second second_mem

private theorem served_of_performed {past : List Occurrence}
    (h : Recorded H schema known root start session said)
    (addressed : Addressed H [] session.scheduler past) (coherent : Coherent [] session.scheduler)
    (no_trie : ∀ occurrence, call ≠ .addSubTrie occurrence)
    (performed : session.scheduler.perform H session.store call = .ok after)
    (turn : Turn H session.scheduler call tasks begun) (begun_coherent : Coherent tasks begun)
    (works : Works H session.store tasks begun after)
    (asked : .askedNode occurrence ∈ said ++ session.scheduler.messages H session.store call) :
    Served { session with scheduler := after } occurrence := by
  obtain ⟨skipped, begun_addressed⟩ := addressed.turn coherent no_trie turn
  have inFlight_iff :=
    @inFlight_iff_of_performed H session.store tasks session.scheduler after past occurrence call
      begun coherent addressed performed turn begun_coherent works
  have bodies_subset : session.scheduler.bodies ⊆ after.bodies :=
    List.Subset.trans (Addressed.advance_of_turn coherent no_trie turn).bodies_subset
      (begun_addressed.works_subset begun_coherent works).1
  rcases List.mem_append.mp asked with before | now
  · rcases h.served before with inFlight | placed | written
    · by_cases answered : ∃ bytes, .answeredNode occurrence.path bytes ∈
          session.scheduler.messages H session.store call
      · obtain ⟨bytes, answered⟩ := answered
        have call_eq := call_eq_of_answeredNode coherent answered
        exact .inr (.inl (placed_of_answered addressed coherent no_trie turn begun_coherent works
          call_eq inFlight))
      · exact .inl (inFlight_iff.mpr (.inl ⟨inFlight, not_exists.mp answered⟩))
    · exact .inr (.inl (List.map_subset _ bodies_subset placed))
    · exact .inr (.inr written)
  · exact .inl (inFlight_iff.mpr (.inr now))

private theorem reached_of_offered (ledger : Ledger H schema known root start session)
    {entries : List (Path × RequestId)}
    (offered : session.scheduler.requests.Offered entries occurrence) :
    Reachable H schema known root occurrence ∧ start.hasNode occurrence = false := by
  obtain ⟨id, request, -, live, unknown, rfl⟩ := offered
  refine ⟨ledger.reaching.missing
    (Addressed.mem_missingNodes live unknown request.occurrence_mem_occurrences), ?_⟩
  by_contra held
  rw [Bool.not_eq_false] at held
  have stored := ledger.grown held
  simp [ledger.sole.notStored live unknown] at stored

theorem perform (h : Recorded H schema known root start session said)
    (ledger : Ledger H schema known root start session) (coherent : Coherent [] session.scheduler)
    (no_trie : ∀ occurrence, call ≠ .addSubTrie occurrence)
    (performed : session.scheduler.perform H session.store call = .ok after)
    (turn : Turn H session.scheduler call tasks begun) (begun_coherent : Coherent tasks begun)
    (works : Works H session.store tasks begun after) :
    Recorded H schema known root start { session with scheduler := after }
      (said ++ session.scheduler.messages H session.store call) := by
  obtain ⟨past, addressed⟩ := ledger.addressed
  obtain ⟨paths_once, keys_once, offered⟩ := asked_once ledger coherent call
  have apart : ∀ other ∈ said.filterMap Message.node?, ∀ occurrence ∈
      (session.scheduler.messages H session.store call).filterMap Message.node?,
      other.path ≠ occurrence.path ∧ start.key other ≠ start.key occurrence := by
    intro other before occurrence now
    obtain ⟨max, offered⟩ := offered occurrence now
    have served := h.served (Message.mem_nodes_iff.mp before)
    exact ledger.apart coherent RequestTable.queue_of_mem_chosen served offered
  refine ⟨?_, h.served_of_performed addressed coherent no_trie performed turn begun_coherent works,
    ?_, ?_, ?_, ?_⟩
  · intro occurrence inFlight
    rcases (inFlight_iff_of_performed coherent addressed performed turn begun_coherent works).mp
      inFlight with ⟨inFlight, -⟩ | asked
    · exact List.mem_append_left _ (h.asked inFlight)
    · exact List.mem_append_right _ asked
  · intro occurrence asked
    rcases List.mem_append.mp asked with before | now
    · exact h.reached before
    · obtain ⟨max, offered⟩ := offered occurrence (Message.mem_nodes_iff.mpr now)
      exact reached_of_offered ledger offered
  · intro path bytes answered
    rcases List.mem_append.mp answered with before | now
    · obtain ⟨occurrence, asked, digest_eq⟩ := h.answered before
      exact ⟨occurrence, List.mem_append_left _ asked, digest_eq⟩
    · obtain rfl := call_eq_of_answeredNode coherent now
      obtain ⟨occurrence, -, digest_eq, inFlight⟩ := turn.exists_inFlight
      exact ⟨occurrence, List.mem_append_left _ (h.asked inFlight), digest_eq.symm⟩
  · rw [List.filterMap_append]
    exact nodup_map_append h.paths_once paths_once fun other before occurrence now =>
      (apart other before occurrence now).1
  · rw [List.filterMap_append]
    exact nodup_map_append h.keys_once keys_once fun other before occurrence now =>
      (apart other before occurrence now).2

end perform

end Recorded

/-- No code was asked for twice, or while it was staged or stored. -/
structure RecordedCodes (session : Session) (said : List Message) : Prop where
  asked : ∀ {digest}, .askedCode digest ∈ said → digest ∈ session.scheduler.codes.inFlight ∨
    HasCode session.store session.scheduler digest
  once : (said.filterMap Message.code?).Nodup

namespace RecordedCodes

theorem write (h : RecordedCodes session said) (not_call : ∀ call, action ≠ .call call)
    (step : Step H session action next) : RecordedCodes next said := by
  have inFlight_eq : next.scheduler.codes.inFlight = session.scheduler.codes.inFlight := by
    cases step with
    | refuse | perform => exact absurd rfl (not_call _)
    | commitNothing | commitRefused | commit | rejectWrites => rfl
  refine ⟨fun asked => ?_, h.once⟩
  rw [inFlight_eq]
  exact (h.asked asked).imp_right step.hasCode

theorem perform (h : RecordedCodes session said) {call : Call} {tasks : List Task}
    {begun after : Scheduler} (codes : SoleCodes session.store session.scheduler)
    (coherent : Coherent [] session.scheduler)
    (performed : session.scheduler.perform H session.store call = .ok after)
    (turn : Turn H session.scheduler call tasks begun) (begun_coherent : Coherent tasks begun)
    (works : Works H session.store tasks begun after) :
    RecordedCodes { session with scheduler := after }
      (said ++ session.scheduler.messages H session.store call) := by
  have inFlight_iff {digest : Digest} :
      digest ∈ after.codes.inFlight ↔ (digest ∈ session.scheduler.codes.inFlight ∧ ∀ bytes,
        .answeredCode digest bytes ∉ session.scheduler.messages H session.store call) ∨
          .askedCode digest ∈ session.scheduler.messages H session.store call :=
    mem_codes_inFlight_iff_of_performed coherent performed turn begun_coherent works
  have step : Step H session (.call call) { session with scheduler := after } :=
    .perform turn begun_coherent works
  constructor
  · intro digest asked
    rcases List.mem_append.mp asked with before | now
    · rcases h.asked before with inFlight | has
      · by_cases answered : ∃ bytes, .answeredCode digest bytes ∈
            session.scheduler.messages H session.store call
        · -- Code that is answered is staged.
          obtain ⟨bytes, answered⟩ := answered
          obtain rfl := call_eq_of_answeredCode coherent answered
          right
          cases turn with
          | processCode =>
              refine HasCode.works (.inr ?_) begun_coherent works
              exact Staging.hasCode_insertCode_iff.mpr (.inl rfl)
        · exact .inl (inFlight_iff.mpr (.inl ⟨inFlight, not_exists.mp answered⟩))
      · exact .inr (step.hasCode has)
    · exact .inl (inFlight_iff.mpr (.inr now))
  · rw [List.filterMap_append]
    rcases messages_asked coherent H session.store call with
      ⟨max, -, -, -, -, -, codes_eq⟩ | ⟨-, codes_eq⟩
    · rw [codes_eq, List.nodup_append]
      refine ⟨h.once, codes.wellFormed.nodup_handOut max, ?_⟩
      rintro digest before _ now rfl
      obtain ⟨⟨request, found⟩, notInFlight⟩ := codes.wellFormed.of_mem_handOut now
      rcases h.asked (Message.mem_codes_iff.mp before) with inFlight | stored | staged
      · exact notInFlight inFlight
      · simp [codes.notStored found] at stored
      · simp [codes.notStaged found] at staged
    · rw [codes_eq, List.append_nil]
      exact h.once

end RecordedCodes

/-- A run in which no further trie is added, and in which whatever is accepted can be decoded
wherever it is referred to, asks for nothing that it need not ask for. -/
theorem recorded_of_transcript (no_trie : ∀ occurrence, .call (.addSubTrie occurrence) ∉ actions)
    (decodable : Decodable H schema known root)
    (accepted : ∀ {path bytes}, .answeredNode path bytes ∈ all → known (H bytes) bytes)
    (ran : transcript H schema start root actions = .ok (final, all)) :
    Coherent [] final.scheduler ∧ Ledger H schema known root start final ∧
      Recorded H schema known root start final all ∧ RecordedCodes final all := by
  refine transcript_keeps (P := fun session said => Ledger H schema known root start session ∧
    Recorded H schema known root start session said ∧ RecordedCodes session said) ?_ ?_ ran
  · intro scheduler works
    refine ⟨.ofRoot decodable works, ?_, ?_⟩
    · refine ⟨fun inFlight => ?_, by simp, by simp, by simp, by simp, by simp⟩
      obtain ⟨id, request, inFlight, -⟩ := (works.inFlight_iff
        (coherent_node (coherent_idle schema) ⟨.root, root⟩)).mp inFlight
      simp [idle, RequestTable.empty] at inFlight
    · exact ⟨by simp, by simp⟩
  · rintro session said action told next member grows coherent ⟨ledger, recorded, codes⟩ tells
    have no_trie occurrence (same : action = .call (.addSubTrie occurrence)) : False :=
      no_trie occurrence (same ▸ member)
    refine ⟨ledger.tells tells decodable coherent no_trie ?_, ?_⟩
    · exact fun answered => accepted (grows.subset (List.mem_append_right _ answered))
    · cases tells with
      | refuse => simpa using ⟨recorded, codes⟩
      | perform performed turn begun_coherent works =>
          exact ⟨recorded.perform ledger coherent
            (fun occurrence same => no_trie occurrence (congrArg Action.call same)) performed turn
            begun_coherent works, codes.perform ledger.codes coherent performed turn begun_coherent
              works⟩
      | write not_call step =>
          rw [List.append_nil]
          exact ⟨recorded.write not_call step, codes.write not_call step⟩

section retains

/-- A node occupies a place, or was written there. -/
def Retains (session : Session) (occurrence : Occurrence) : Prop :=
  session.scheduler.Occupies occurrence ∨ occurrence ∈ session.putNodes

theorem Step.retains (step : Step H session action next) (coherent : Coherent [] session.scheduler)
    (addressed : ∃ past, Addressed H [] session.scheduler (past ++ session.putNodes))
    (no_trie : ∀ occurrence, action ≠ .call (.addSubTrie occurrence))
    (retains : session.Retains occurrence) : next.Retains occurrence := by
  obtain ⟨past, addressed⟩ := addressed
  cases step with
  | refuse | commitNothing | commitRefused | rejectWrites => exact retains
  | @perform call tasks begun after turn begun_coherent works =>
      refine retains.imp_left (addressed.occupies_of_works coherent ?_ turn begun_coherent works)
      exact fun occurrence same => no_trie occurrence (congrArg Action.call same)
  | commit =>
      simp only [Retains, putNodes, List.filterMap_append, List.mem_append]
      rcases retains with (live | staged) | written
      · exact .inl (.inl live)
      · obtain ⟨bytes, found⟩ := Staging.digestAt?_eq_some_iff.mp staged
        exact .inr (.inr (Put.mem_occurrences_iff.mpr ⟨bytes, Staging.node_mem_puts found⟩))
      · exact .inr (.inl written)

theorem transcript_append (earlier later : List Action) :
    transcript H schema start root (earlier ++ later) = (do
      let run ← transcript H schema start root earlier
      later.foldlM (recorded (fun session action => session.step H action)
        fun session action => session.tells H action) run) := by
  unfold transcript
  cases ofRoot H start schema root with
  | error fault => rfl
  | ok session => exact List.foldlM_append

theorem transcript_grows {earlier later : List Action}
    (began : transcript H schema start root earlier = .ok (session, said))
    (ran : transcript H schema start root (earlier ++ later) = .ok (final, all)) : said <+: all := by
  rw [transcript_append, began] at ran
  exact record_grows ran

theorem transcript_concat {earlier : List Action}
    (began : transcript H schema start root earlier = .ok (session, said))
    (ran : transcript H schema start root (earlier ++ [action]) = .ok (final, all)) :
    session.step H action = .ok final ∧ all = said ++ session.tells H action := by
  rw [transcript_append] at ran
  obtain ⟨_, began', ran⟩ := bind_eq_ok.mp ran
  obtain rfl := Except.ok.inj (began.symm.trans began')
  rw [List.foldlM_cons] at ran
  obtain ⟨_, recorded_eq, last_eq⟩ := bind_eq_ok.mp ran
  obtain rfl := Except.ok.inj last_eq
  obtain ⟨next, stepped, same⟩ := bind_eq_ok.mp recorded_eq
  obtain ⟨rfl, rfl⟩ := Prod.mk.inj (Except.ok.inj same)
  exact ⟨stepped, rfl⟩

/-- What the start of a run and each action of it keep is true in the end, where the run that led to
the action is at hand. -/
theorem transcript_induction {P : Session → List Message → Prop}
    (begins : ∀ {scheduler}, Works H start [.node none ⟨.root, root⟩] (idle schema) scheduler →
      P ⟨scheduler, start, fun _ => .empty, []⟩ [])
    (kept : ∀ {earlier action later session said told next}, actions = earlier ++ action :: later →
      transcript H schema start root earlier = .ok (session, said) →
        transcript H schema start root (earlier ++ [action]) = .ok (next, said ++ told) →
          P session said → Tells H session action told next → P next (said ++ told))
    (ran : transcript H schema start root actions = .ok (final, all)) : P final all := by
  suffices reached : ∀ front rest, actions = front ++ rest → ∀ {session said},
      transcript H schema start root front = .ok (session, said) → P session said from
    reached actions [] (List.append_nil _).symm ran
  intro front
  induction front using List.reverseRecOn with
  | nil =>
      rintro rest - session said ran
      exact (transcript_keeps (P := P) begins (fun member => absurd member List.not_mem_nil) ran).2
  | append_singleton earlier action ih =>
      rintro rest actions_eq session said ran
      obtain ⟨⟨before, told⟩, began, -⟩ := bind_eq_ok.mp (transcript_append earlier [action] ▸ ran)
      obtain ⟨stepped, rfl⟩ := transcript_concat began ran
      have coherent := (transcript_keeps (P := fun _ _ => True) (fun _ => trivial)
        (fun _ _ _ _ _ => trivial) began).1
      rw [List.append_assoc, List.singleton_append] at actions_eq
      exact kept actions_eq began ran (ih (action :: rest) actions_eq began)
        (tells_of_eq_ok coherent stepped)

theorem retains_of_transcript {earlier later : List Action}
    (no_trie : ∀ occurrence, .call (.addSubTrie occurrence) ∉ later)
    (began : transcript H schema start root earlier = .ok (session, said))
    (ran : transcript H schema start root (earlier ++ later) = .ok (final, all))
    (coherent : Coherent [] session.scheduler)
    (addressed : ∃ past, Addressed H [] session.scheduler (past ++ session.putNodes))
    (occupies : session.scheduler.Occupies occurrence) : final.Retains occurrence := by
  rw [transcript_append, began] at ran
  refine (recorded_keeps (P := fun session _ => Coherent [] session.scheduler ∧
    (∃ past, Addressed H [] session.scheduler (past ++ session.putNodes)) ∧
      session.Retains occurrence) ?_ ⟨coherent, addressed, .inl occupies⟩ ran).2.2
  rintro session said action next member - ⟨coherent, ⟨past, addressed⟩, retains⟩ stepped
  have no_trie occurrence (same : action = .call (.addSubTrie occurrence)) : False :=
    no_trie occurrence (same ▸ member)
  have step := step_of_eq_ok coherent stepped
  exact ⟨step.coherent coherent, step.addressed coherent no_trie addressed,
    step.retains coherent ⟨past, addressed⟩ no_trie retains⟩

end retains

/-- Every copy of a node that occupied a place in the course of a run was written and is stored. -/
def AllWritten (H : Hash) (schema : Schema) (start : Store) (root : Digest)
    (actions : List Action) (session : Session) (digest : Digest) : Prop :=
  ∀ earlier later past said occurrence, actions = earlier ++ later →
    transcript H schema start root earlier = .ok (past, said) →
      past.scheduler.Occupies occurrence → occurrence.digest = digest →
        occurrence ∈ session.putNodes ∧ session.store.hasNode occurrence = true

/-- A scheduler that is alone on a store asks for a node at one place at a time, for none at the same
place twice, and for none that is stored. -/
structure Deduplicated (H : Hash) (schema : Schema) (start : Store) (root : Digest)
    (actions : List Action) (session : Session) (said : List Message) : Prop where
  /-- A request whose bytes are not known is the only one for its node. -/
  alone : ∀ {id other request current}, session.scheduler.requests.live? id = some request →
    request.bytes = none → session.scheduler.requests.live? other = some current →
      current.occurrence.digest = request.occurrence.digest → id = other
  paths_once : ((said.filterMap Message.node?).map Occurrence.path).Nodup
  /-- When a call begins to ask for a node, no copy of it was asked for, known or staged before, as
  all earlier copies were written. -/
  fresh : ∀ {earlier call before told occurrence}, actions = earlier ++ [.call call] →
    transcript H schema start root earlier = .ok (before, told) →
      session.scheduler.Seeks occurrence → ¬ before.scheduler.Seeks occurrence →
        ¬ before.scheduler.Tracks occurrence.digest ∧
          AllWritten H schema start root earlier before occurrence.digest
  notStored : ∀ {max missing after}, session.scheduler.missing max = .ok (missing, after) →
    ∀ occurrence ∈ missing.nodes, session.store.hasNode occurrence = false

namespace Ledger

private theorem tracks_of_occupies (h : Ledger H schema known root start session)
    (occupies : session.scheduler.Occupies occurrence) :
    session.scheduler.Tracks occurrence.digest := by
  rcases occupies with ⟨id, request, live, member⟩ | staged
  · exact .inl ⟨id, request, live, (Request.digest_of_mem_occurrences member).symm⟩
  · exact .inr (h.sole.staged staged)

private theorem not_tracks (h : Ledger H schema known root start session) {call : Call}
    (tells : Tells H session (.call call) told next) (decodable : Decodable H schema known root)
    (coherent : Coherent [] session.scheduler)
    (no_trie : ∀ occurrence, call ≠ .addSubTrie occurrence)
    (delivered : ∀ {path bytes}, .answeredNode path bytes ∈ told → known (H bytes) bytes)
    (seeks : next.scheduler.Seeks occurrence) (not_sought : ¬ session.scheduler.Seeks occurrence) :
    ¬ session.scheduler.Tracks occurrence.digest := by
  cases tells with
  | refuse => exact absurd seeks not_sought
  | write not_call => exact absurd rfl (not_call call)
  | perform performed turn begun_coherent works =>
      have economy := h.economy decodable coherent no_trie ?_ turn begun_coherent works
      · exact (economy.seeks seeks).resolve_left not_sought
      · rintro path bytes rfl
        exact delivered (by rw [messages_processNode performed]; exact List.mem_singleton_self _)

theorem not_stored_of_missing (h : Ledger H schema known root start session)
    (coherent : Coherent [] session.scheduler) {max : Nat} {missing : Missing} {after : Scheduler}
    (missing_eq : session.scheduler.missing max = .ok (missing, after)) :
    ∀ occurrence ∈ missing.nodes, session.store.hasNode occurrence = false := by
  intro occurrence member
  obtain ⟨occurrences, handed_eq, -, offered_iff, -⟩ :=
    messages_missing coherent H session.store max
  obtain ⟨rfl, -⟩ := Prod.mk.inj (Except.ok.inj (handed_eq.symm.trans missing_eq))
  obtain ⟨id, request, -, live, unknown, rfl⟩ := (offered_iff occurrence).mp member
  exact h.sole.notStored live unknown

end Ledger

/-- If whatever is accepted can be decoded wherever it is referred to, as it can be if values refer
to nothing, then nothing is asked for that need not be. -/
theorem deduplicated_of_transcript
    (no_trie : ∀ occurrence, .call (.addSubTrie occurrence) ∉ actions)
    (decodable : schema = .accounts → Decodable H schema (Accepted H said) root)
    (ran : transcript H schema start root actions = .ok (session, said)) :
    Deduplicated H schema start root actions session said := by
  have decodable : Decodable H schema (Accepted H said) root := by
    cases schema with
    | plain => exact decodable_plain ran
    | accounts => exact decodable rfl
  -- What is known at the end makes each part of the run keep to its record.
  have kept {part : List Action} {past : Session} {spoken : List Message} (subset : part ⊆ actions)
      (spoken_subset : spoken ⊆ said)
      (began : transcript H schema start root part = .ok (past, spoken)) :=
    recorded_of_transcript (fun occurrence member => no_trie occurrence (subset member)) decodable
      (fun answered => ⟨rfl, _, spoken_subset answered⟩) began
  obtain ⟨coherent, ledger, recorded, -⟩ := kept (List.Subset.refl _) (List.Subset.refl _) ran
  refine ⟨ledger.sole.alone, recorded.paths_once, ?_, ledger.not_stored_of_missing coherent⟩
  rintro earlier call before told occurrence rfl began seeks not_sought
  have earlier_subset := List.subset_append_left earlier [Action.call call]
  obtain ⟨before_coherent, before_ledger, -⟩ :=
    kept earlier_subset (transcript_grows began ran).subset began
  obtain ⟨stepped, said_eq⟩ := transcript_concat began ran
  have not_tracks : ¬ before.scheduler.Tracks occurrence.digest := by
    refine before_ledger.not_tracks (tells_of_eq_ok before_coherent stepped) decodable
      before_coherent ?_ ?_ seeks not_sought
    · exact fun occurrence same => no_trie occurrence (by simp [same])
    · intro path bytes answered
      rw [said_eq]
      exact ⟨rfl, path, List.mem_append_right _ answered⟩
  refine ⟨not_tracks, ?_⟩
  rintro earliest rest past spoken other rfl past_began occupies digest_eq
  obtain ⟨past_coherent, past_ledger, -⟩ := kept
    (List.Subset.trans (List.subset_append_left earliest rest) earlier_subset)
    ((transcript_grows past_began began).trans (transcript_grows began ran)).subset past_began
  have retains : before.Retains other :=
    retains_of_transcript (fun occurrence member => no_trie occurrence
      (earlier_subset (List.mem_append_right _ member))) past_began began past_coherent
      past_ledger.addressed occupies
  rcases retains with occupies | written
  · exact absurd (digest_eq ▸ before_ledger.tracks_of_occupies occupies) not_tracks
  · exact ⟨written, (before_ledger.put written).1⟩

/-- Two accounts have the same storage. That of the second is asked for again, as that of the first
was written before. -/
theorem deduplicated_of_transcript_owners :
    let storage : Bytes := (Node.leaf [1, 2] [7]).encode
    let leaf (nonce : UInt64) : Bytes := (Node.leaf (List.replicate 63 5) (Account.encode
      ⟨nonce, 2, Hash.sha256 storage, emptyCode Hash.sha256⟩)).encode
    let children := (Children.absent.set 0xa (some (Hash.sha256 (leaf 1)))).set 0xb
      (some (Hash.sha256 (leaf 2)))
    let branch : Bytes := (Node.branch children none).encode
    let first : Digest := ⟨0xa5 :: List.replicate 31 0x55, rfl⟩
    let second : Digest := ⟨0xb5 :: List.replicate 31 0x55, rfl⟩
    let actions : List Action :=
      [.call (.missing 0), .call (.processNode .root branch), .call (.missing 0),
        .call (.processNode ⟨.root, [0xa]⟩ (leaf 1)), .call (.missing 0),
        .call (.processNode (.subTrie first) storage), .commit 0,
        .call (.processNode ⟨.root, [0xb]⟩ (leaf 2)), .call (.missing 0)]
    (∀ occurrence, .call (.addSubTrie occurrence) ∉ actions) ∧
      ∃ session said, transcript Hash.sha256 .accounts (.empty .byPath) (Hash.sha256 branch)
          actions = .ok (session, said) ∧
        Decodable Hash.sha256 .accounts (Accepted Hash.sha256 said) (Hash.sha256 branch) ∧
        (said.filterMap Message.node?).filter
            (fun occurrence => occurrence.digest = Hash.sha256 storage) =
          [⟨.subTrie first, Hash.sha256 storage⟩, ⟨.subTrie second, Hash.sha256 storage⟩] ∧
        Deduplicated Hash.sha256 .accounts (.empty .byPath) (Hash.sha256 branch) actions session
          said := by
  intro storage leaf children branch first second actions
  have no_trie : ∀ occurrence, .call (.addSubTrie occurrence) ∉ actions := by
    simp [actions]
  refine ⟨no_trie, ?_⟩
  let nodes : List Occurrence :=
    [⟨.root, Hash.sha256 branch⟩, ⟨⟨.root, [0xa]⟩, Hash.sha256 (leaf 1)⟩,
      ⟨⟨.root, [0xb]⟩, Hash.sha256 (leaf 2)⟩, ⟨.subTrie first, Hash.sha256 storage⟩,
      ⟨.subTrie second, Hash.sha256 storage⟩]
  have ran_eq : (transcript Hash.sha256 .accounts (.empty .byPath) (Hash.sha256 branch) actions).map
      (fun run => ((run.2.filterMap Message.node?).filter
          (fun occurrence => occurrence.digest = Hash.sha256 storage),
        decide (∀ node ∈ nodes, ∀ bytes ∈ run.2.filterMap Message.answer?,
          Hash.sha256 bytes = node.digest →
            Schema.accounts.leadsWithin Hash.sha256 nodes node.path bytes = true))) =
      .ok ([⟨.subTrie first, Hash.sha256 storage⟩, ⟨.subTrie second, Hash.sha256 storage⟩],
        true) := by
    decide +kernel
  obtain ⟨⟨session, said⟩, ran, run_eq⟩ := map_eq_ok.mp ran_eq
  obtain ⟨asked_eq, within⟩ := Prod.mk.inj run_eq
  have decodable : Decodable Hash.sha256 .accounts (Accepted Hash.sha256 said)
      (Hash.sha256 branch) :=
    decodable_of_leadsWithin List.mem_cons_self (of_decide_eq_true within)
  exact ⟨session, said, ran, decodable, asked_eq,
    deduplicated_of_transcript no_trie (fun _ => decodable) ran⟩

end Session

end TrieSync
