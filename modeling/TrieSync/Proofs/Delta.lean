import TrieSync.Hash.Sha256
import TrieSync.Proofs.Deduplication

namespace TrieSync

open Scheduler

namespace Session

variable {H : Hash} {schema : Schema} {known : Digest → Bytes → Prop} {root : Digest}
  {start : Store} {session : Session} {actions : List Action} {said : List Message}

theorem preimage_of_accepted (ran : transcript H schema start root actions = .ok (session, said))
    {digest : Digest} {bytes : Bytes} (accepted : Accepted H said digest bytes) :
    Preimage H start actions digest bytes := by
  obtain ⟨digest_eq, path, answered⟩ := accepted
  refine ⟨.inr (List.mem_filterMap.mpr ⟨.call (.processNode path bytes), ?_, rfl⟩), digest_eq⟩
  refine (transcript_keeps (P := fun _ said => ∀ path bytes, .answeredNode path bytes ∈ said →
    .call (.processNode path bytes) ∈ actions) (by simp) ?_ ran).2 path bytes answered
  rintro session said action told next member - coherent given tells path bytes answered
  rcases List.mem_append.mp answered with before | now
  · exact given path bytes before
  · cases tells with
    | refuse | write => simp at now
    | perform => rwa [← call_eq_of_answeredNode coherent now]

theorem Recorded.asked_of_stored (h : Recorded H schema (Accepted H said) root start session said)
    (ledger : Ledger H schema (Accepted H said) root start session) {occurrence : Occurrence}
    (stored : session.store.hasNode occurrence = true)
    (absent : start.hasNode occurrence = false) :
    ∃ asked, .askedNode asked ∈ said ∧ asked.digest = occurrence.digest := by
  rcases ledger.accounted.stored stored with held | ⟨other, written, key_eq⟩
  · simp [absent] at held
  · obtain ⟨-, bytes, digest_eq, path, answered⟩ := ledger.put written
    obtain ⟨asked, asked_mem, asked_eq⟩ := h.answered answered
    exact ⟨asked, asked_mem,
      asked_eq.trans (digest_eq.trans (Store.digest_eq_of_key_eq key_eq))⟩

/-- A scheduler asks for no node and no code twice, and for none that is stored. If it is done, and
all that was stored from the start was backed, then it has asked for whatever is reachable and was
not stored from the start, and for nothing else. -/
structure FetchesDelta (H : Hash) (start : Store) (root : Digest) (actions : List Action)
    (session : Session) (said : List Message) : Prop where
  nodes_once : ((said.filterMap Message.node?).map Occurrence.digest).Nodup
  codes_once : (said.filterMap Message.code?).Nodup
  notStored : ∀ {max missing after}, session.scheduler.missing max = .ok (missing, after) →
    (∀ occurrence ∈ missing.nodes, session.store.hasNode occurrence = false) ∧
      ∀ digest ∈ missing.codes, session.store.hasCode digest = false
  delta : start.Closed H .plain → Collisionless H start actions →
    session.scheduler.isDone = true → ∀ digest,
      digest ∈ (said.filterMap Message.node?).map Occurrence.digest ↔
        ∃ occurrence, Reachable H .plain (Preimage H start actions) root occurrence ∧
          occurrence.digest = digest ∧ start.hasNode occurrence = false

theorem Ledger.not_stored_of_missing_codes (h : Ledger H schema known root start session)
    (coherent : Coherent [] session.scheduler) {max : Nat} {missing : Missing} {after : Scheduler}
    (missing_eq : session.scheduler.missing max = .ok (missing, after)) :
    ∀ digest ∈ missing.codes, session.store.hasCode digest = false := by
  intro digest member
  obtain ⟨occurrences, handed_eq, -⟩ := messages_missing coherent H session.store max
  obtain ⟨rfl, -⟩ := Prod.mk.inj (Except.ok.inj (handed_eq.symm.trans missing_eq))
  obtain ⟨⟨request, found⟩, -⟩ := h.codes.wellFormed.of_mem_handOut member
  exact h.codes.notStored found

/-- In a store that is keyed by digest, a scheduler that is alone on it gets just what is new. -/
theorem fetchesDelta_of_transcript (keying_eq : start.keying = .byDigest)
    (no_trie : ∀ occurrence, .call (.addSubTrie occurrence) ∉ actions)
    (ran : transcript H .plain start root actions = .ok (session, said)) :
    FetchesDelta H start root actions session said := by
  obtain ⟨coherent, ledger, recorded, codes⟩ :=
    recorded_of_transcript no_trie (decodable_plain ran) (fun answered => ⟨rfl, _, answered⟩) ran
  refine ⟨?_, codes.once, fun missing_eq => ⟨ledger.not_stored_of_missing coherent missing_eq,
    ledger.not_stored_of_missing_codes coherent missing_eq⟩, ?_⟩
  · have key_eq : start.key = fun occurrence => ⟨.root, occurrence.digest⟩ := by
      funext occurrence
      simp only [Store.key, keying_eq]
    have nodup := recorded.keys_once
    have map_eq (occurrences : List Occurrence) : occurrences.map start.key =
        (occurrences.map Occurrence.digest).map fun digest => ⟨.root, digest⟩ := by
      rw [key_eq, List.map_map]
      rfl
    exact (map_eq _ ▸ nodup).of_map
  · intro closed collisionless isDone digest
    constructor
    · intro asked
      obtain ⟨occurrence, occurrence_mem, rfl⟩ := List.mem_map.mp asked
      obtain ⟨reachable, absent⟩ := recorded.reached (Message.mem_nodes_iff.mp occurrence_mem)
      exact ⟨occurrence, reachable.mono fun _ _ accepted => preimage_of_accepted ran accepted, rfl,
        absent⟩
    · rintro ⟨occurrence, reachable, rfl, absent⟩
      have completes : Completes H .plain start root actions session :=
        ⟨no_trie, by rw [← map_transcript, ran]; rfl, isDone⟩
      obtain ⟨-, tracked, -⟩ := completes.keeps (P := fun _ => True) (.inr rfl) closed (.inl rfl)
        collisionless.functional (fun _ => trivial) (fun _ => trivial) (preimage_answered H start (List.Subset.refl actions))
        (fun _ => trivial) (fun _ _ _ _ _ => trivial)
      have stored := tracked.hasNode_of_reachable collisionless.functional
        (covering_preimage H start actions) coherent isDone reachable
      obtain ⟨asked, asked_mem, digest_eq⟩ := recorded.asked_of_stored ledger stored absent
      exact List.mem_map.mpr ⟨asked, Message.mem_nodes_iff.mpr asked_mem, digest_eq⟩

/-- A leaf is at two places of a branch, and another one at a third. Only the second was stored. -/
theorem fetchesDelta_of_transcript_shared :
    let shared : Bytes := (Node.leaf [1, 2] [7]).encode
    let other : Bytes := (Node.leaf [3] [9]).encode
    let children := ((Children.absent.set 1 (some (Hash.sha256 shared))).set 2
      (some (Hash.sha256 shared))).set 3 (some (Hash.sha256 other))
    let branch : Bytes := (Node.branch children none).encode
    let start : Store := (Store.empty .byDigest).putAll [.node ⟨.root, Hash.sha256 other⟩ other]
    let actions : List Action :=
      [.call (.missing 0), .call (.processNode .root branch), .call (.missing 1),
        .call (.processNode ⟨.root, [1]⟩ other), .call (.processNode ⟨.root, [1]⟩ shared),
        .rejectWrites true, .commit 0, .rejectWrites false, .commit 1]
    start.keying = .byDigest ∧ (∀ occurrence, .call (.addSubTrie occurrence) ∉ actions) ∧
      start.Closed Hash.sha256 .plain ∧ Collisionless Hash.sha256 start actions ∧
      ∃ session said,
        transcript Hash.sha256 .plain start (Hash.sha256 branch) actions = .ok (session, said) ∧
        session.scheduler.isDone = true ∧
        (said.filterMap Message.node?).map Occurrence.digest =
          [Hash.sha256 branch, Hash.sha256 shared] ∧
        FetchesDelta Hash.sha256 start (Hash.sha256 branch) actions session said := by
  intro shared other children branch start actions
  have no_trie : ∀ occurrence, .call (.addSubTrie occurrence) ∉ actions := by
    simp [actions]
  obtain ⟨decoded, distinct, ran_eq⟩ :
      Schema.references .plain Hash.sha256 .root other = .ok ⟨[], []⟩ ∧
      (∀ left ∈ other :: actions.filterMap Action.answer?,
        ∀ right ∈ other :: actions.filterMap Action.answer?,
          Hash.sha256 left = Hash.sha256 right → left = right) ∧
      (transcript Hash.sha256 .plain start (Hash.sha256 branch) actions).map (fun run =>
        (run.1.scheduler.isDone, (run.2.filterMap Message.node?).map Occurrence.digest)) =
          .ok (true, [Hash.sha256 branch, Hash.sha256 shared]) := by
    decide +kernel
  have closed : start.Closed Hash.sha256 .plain := by
    refine Store.Closed.putAll (Store.closed_empty Hash.sha256 .plain .byDigest) (.inr rfl) ?_
    intro occurrence bytes member
    obtain ⟨rfl, rfl⟩ := Put.node.inj (List.mem_singleton.mp member)
    exact ⟨rfl, _, decoded, by simp, by simp⟩
  have involved_mem {bytes : Bytes} (involved : Involved start actions bytes) :
      bytes ∈ other :: actions.filterMap Action.answer? := by
    rcases involved with ⟨key, held⟩ | given
    · rcases Store.getElem?_nodes_putAll held with held | ⟨occurrence, put, -⟩
      · simp [Store.empty] at held
      · obtain ⟨-, rfl⟩ := Put.node.inj (List.mem_singleton.mp put)
        exact List.mem_cons_self
    · exact List.mem_cons_of_mem _ given
  have collisionless : Collisionless Hash.sha256 start actions :=
    fun left right involved involved' =>
      distinct left (involved_mem involved) right (involved_mem involved')
  refine ⟨rfl, no_trie, closed, collisionless, ?_⟩
  obtain ⟨⟨session, said⟩, ran, run_eq⟩ := map_eq_ok.mp ran_eq
  obtain ⟨isDone, asked_eq⟩ := Prod.mk.inj run_eq
  exact ⟨session, said, ran, isDone, asked_eq, fetchesDelta_of_transcript rfl no_trie ran⟩

end Session

end TrieSync
