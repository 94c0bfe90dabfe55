import TrieSync.Proofs.Content

namespace TrieSync

/-- A store holds what it held at the start, every node that is reachable and all code that these
nodes refer to, and nothing else. -/
structure Store.Completed (H : Hash) (schema : Schema) (known : Digest → Bytes → Prop)
    (root : Digest) (store start : Store) : Prop where
  keying_eq : store.keying = start.keying
  nodes : ∀ (key : Occurrence) (bytes : Bytes), store.nodes[key]? = some bytes ↔
    start.nodes[key]? = some bytes ∨ ∃ occurrence, Reachable H schema known root occurrence ∧
      known occurrence.digest bytes ∧ start.key occurrence = key
  hasNode : ∀ {occurrence}, Reachable H schema known root occurrence →
    store.hasNode occurrence = true
  codes : ∀ (digest : Digest) (bytes : Bytes), store.codes[digest]? = some bytes ↔
    start.codes[digest]? = some bytes ∨
      start.hasCode digest = false ∧ ReachableCode H schema known root digest ∧ known digest bytes
  hasCode : ∀ {code}, ReachableCode H schema known root code → store.hasCode code = true

open Scheduler

namespace Session

variable {H : Hash} {schema kept : Schema} {known : Digest → Bytes → Prop} {root : Digest}
  {wanted : Digest → Prop} {start : Store} {session next final : Session} {action : Action}
  {actions : List Action}

/-- All that holds of a scheduler that synchronizes one trie into a store of its own. -/
structure Tracked (H : Hash) (schema kept : Schema) (known : Digest → Bytes → Prop)
    (root : Digest) (wanted : Digest → Prop) (start : Store) (session : Session) : Prop where
  guarded : Guarded H schema kept session
  addressed : ∃ past, Addressed H [] session.scheduler (past ++ session.putNodes)
  progress : Progress H schema known root wanted start session
  accounted : Accounted start session

theorem Step.tracked (step : Step H session action next) (keeps : kept = schema ∨ kept = .plain)
    (functional : Functional known) (coherent : Coherent [] session.scheduler)
    (codes_wanted : ∀ {code}, ReachableCode H schema known root code → wanted code)
    (fetches : action.Fetches wanted)
    (answered : ∀ {bytes}, action.answer? = some bytes → known (H bytes) bytes)
    (h : Tracked H schema kept known root wanted start session) :
    Tracked H schema kept known root wanted start next := by
  have no_trie occurrence (same : action = .call (.addSubTrie occurrence)) : False := by
    subst same
    exact fetches
  obtain ⟨past, addressed⟩ := h.addressed
  exact ⟨(step.guarded h.guarded keeps (addressed.unambiguous coherent)).1,
    step.addressed coherent no_trie addressed,
    step.progress functional coherent addressed codes_wanted fetches answered h.progress,
    step.accounted coherent addressed no_trie h.accounted⟩

private theorem not_asks_idle (schema : Schema) (code : Digest) :
    ¬ (idle schema).codes.Asks code := by
  rintro (⟨path, member⟩ | member)
  · simp [idle, CodeTable.empty] at member
  · simp [idle, CodeTable.empty] at member

private theorem within_idle (H : Hash) (schema : Schema) (known : Digest → Bytes → Prop)
    (root : Digest) (wanted : Digest → Prop) (start : Store) :
    Within H schema known root wanted start [.node none ⟨.root, root⟩] (idle schema) where
  missing := (Reaching.ofRoot H schema known root).missing
  bodies := (Reaching.ofRoot H schema known root).bodies
  codes member := by simp at member
  asked asked := absurd asked (not_asks_idle _ _)
  staged staged := by simp [idle, Staging.empty] at staged

theorem tracked_ofRoot (known : Digest → Bytes → Prop)
    (codes_wanted : ∀ {code}, ReachableCode H schema known root code → wanted code)
    (supports : start.Supports kept)
    (closed : start.Closed H kept) (started : ofRoot H start schema root = .ok session) :
    Coherent [] session.scheduler ∧ Tracked H schema kept known root wanted start session := by
  unfold ofRoot at started
  cases scheduler_eq : Scheduler.ofRoot H start schema root with
  | error fault => simp [scheduler_eq, bind, Except.bind] at started
  | ok scheduler =>
      simp only [scheduler_eq] at started
      obtain rfl := Except.ok.inj started
      have works := works_of_ofRoot scheduler_eq
      have coherent := coherent_node (coherent_idle schema) ⟨.root, root⟩
      have turn : Turn H (idle schema) (.addSubTrie ⟨.root, root⟩) [.node none ⟨.root, root⟩]
          (idle schema) := .addSubTrie
      have holds := (holds_idle schema known).turn turn (by simp)
      have hashes := (holds_idle schema (Hashes H)).turn turn (by simp)
      have sound := ((sound_idle H start schema).turn turn).works coherent hashes
        (fun _ _ same => same) works
      have addressed := Addressed.ofRoot H schema root
      have attended : Attended H start [.node none ⟨.root, root⟩] (idle schema) ⟨.root, root⟩ :=
        .inr (.inr (.inr ⟨_, List.mem_singleton_self _, rfl, List.Subset.refl _⟩))
      refine ⟨works.coherent coherent, ⟨?_, ?_, ?_, ?_⟩⟩
      · exact ⟨supports, closed, by simp [Put.Closed, Batch.empty], by simp,
          hashes.works coherent works, sound⟩
      · obtain ⟨skipped, addressed⟩ := addressed.works coherent works
        exact ⟨_, addressed⟩
      · exact ⟨holds.works coherent works,
          (within_idle H schema known root wanted start).works coherent addressed holds (.refl _)
            codes_wanted works,
          by simp [Batch.empty], by simp, .refl _ _, attended.works coherent works⟩
      · exact ⟨rfl, .inl, by simp [Batch.empty]⟩

/-- Bytes are known of their own digests only, and those that are stored from the start are
known. -/
structure Covering (H : Hash) (start : Store) (known : Digest → Bytes → Prop) : Prop where
  digest_eq : ∀ {digest bytes}, known digest bytes → H bytes = digest
  stored : ∀ {key : Occurrence} {bytes}, start.nodes[key]? = some bytes → known (H bytes) bytes

namespace Tracked

variable {occurrence : Occurrence} {bytes : Bytes} {code : Digest}

theorem known_of_stored (h : Tracked H schema kept known root wanted start session)
    (covering : Covering H start known) (stored : session.store.node? occurrence = some bytes) :
    known occurrence.digest bytes := by
  have digest_eq := (h.guarded.closed stored).digest_eq
  rcases h.progress.grown.nodes stored with held | ⟨other, ⟨-, other_known⟩, -⟩
  · exact digest_eq ▸ covering.stored held
  · rw [← digest_eq, covering.digest_eq other_known]
    exact other_known

theorem stored_of_reachable (h : Tracked H schema kept known root wanted start session)
    (functional : Functional known) (covering : Covering H start known)
    (coherent : Coherent [] session.scheduler) (isDone : session.scheduler.isDone = true)
    (backed : ∀ {occurrence bytes}, Reachable H schema known root occurrence →
      session.store.node? occurrence = some bytes →
        Backed H schema (fun node => session.store.hasNode node = true)
          (fun code => session.store.hasCode code = true) occurrence bytes)
    (reachable : Reachable H schema known root occurrence) :
    ∃ bytes, session.store.node? occurrence = some bytes ∧ known occurrence.digest bytes := by
  have of_hasNode {occurrence : Occurrence} (has : session.store.hasNode occurrence = true) :
      ∃ bytes, session.store.node? occurrence = some bytes ∧ known occurrence.digest bytes := by
    rw [Store.hasNode_eq_isSome_node?] at has
    obtain ⟨bytes, stored⟩ := Option.isSome_iff_exists.mp has
    exact ⟨bytes, stored, h.known_of_stored covering stored⟩
  obtain ⟨digest_ne, leads_to⟩ := reachable
  induction leads_to with
  | refl => exact of_hasNode (h.progress.attended.stored_of_isDone coherent isDone digest_ne)
  | @tail upper lower leads_to leads ih =>
      obtain ⟨bytes, stored, bytes_known⟩ := ih
      obtain ⟨-, references, decoded, nodes, -⟩ := backed ⟨digest_ne, leads_to⟩ stored
      obtain ⟨bytes', references', bytes_known', decoded', member, lower_ne⟩ := leads
      obtain rfl := functional _ _ _ bytes_known bytes_known'
      obtain rfl := Except.ok.inj (decoded.symm.trans decoded')
      exact of_hasNode ((nodes lower member).resolve_left lower_ne)

theorem backed_of_reachable (h : Tracked H schema schema known root wanted start session)
    (functional : Functional known) (covering : Covering H start known)
    (coherent : Coherent [] session.scheduler) (isDone : session.scheduler.isDone = true)
    (reachable : Reachable H schema known root occurrence) :
    ∃ bytes, session.store.node? occurrence = some bytes ∧ known occurrence.digest bytes ∧
      Backed H schema (fun node => session.store.hasNode node = true)
        (fun code => session.store.hasCode code = true) occurrence bytes := by
  obtain ⟨bytes, stored, bytes_known⟩ := h.stored_of_reachable functional covering coherent isDone
    (fun _ stored => h.guarded.closed stored) reachable
  exact ⟨bytes, stored, bytes_known, h.guarded.closed stored⟩

theorem hasNode_of_reachable (h : Tracked H schema schema known root wanted start session)
    (functional : Functional known) (covering : Covering H start known)
    (coherent : Coherent [] session.scheduler) (isDone : session.scheduler.isDone = true)
    (reachable : Reachable H schema known root occurrence) :
    session.store.hasNode occurrence = true := by
  obtain ⟨bytes, stored, -⟩ := h.backed_of_reachable functional covering coherent isDone reachable
  rw [Store.hasNode_eq_isSome_node?, stored]
  rfl

theorem hasCode_of_reachable (h : Tracked H schema schema known root wanted start session)
    (functional : Functional known) (covering : Covering H start known)
    (coherent : Coherent [] session.scheduler) (isDone : session.scheduler.isDone = true)
    (reachable : ReachableCode H schema known root code) : session.store.hasCode code = true := by
  obtain ⟨occurrence, bytes, references, reachable, bytes_known, decoded, member⟩ := reachable
  obtain ⟨bytes', -, bytes_known', -, references', decoded', -, codes⟩ :=
    h.backed_of_reachable functional covering coherent isDone reachable
  obtain rfl := functional _ _ _ bytes_known bytes_known'
  obtain rfl := Except.ok.inj (decoded.symm.trans decoded')
  exact codes code member

theorem completed
    (h : Tracked H schema schema known root (ReachableCode H schema known root) start session)
    (functional : Functional known) (covering : Covering H start known)
    (closed : start.Closed H schema) (coherent : Coherent [] session.scheduler)
    (isDone : session.scheduler.isDone = true) :
    session.store.Completed H schema known root start where
  keying_eq := h.progress.grown.keying_eq
  nodes key bytes := by
    have grown := h.progress.grown
    constructor
    · intro stored
      refine (grown.nodes stored).imp_right ?_
      exact fun ⟨occurrence, ⟨reachable, bytes_known⟩, key_eq⟩ =>
        ⟨occurrence, reachable, bytes_known, key_eq⟩
    · rintro (held | ⟨occurrence, reachable, bytes_known, rfl⟩)
      · obtain ⟨now, stored⟩ := grown.exists_node held
        rcases grown.nodes stored with held' | ⟨occurrence, ⟨-, now_known⟩, rfl⟩
        · exact stored.trans (held'.symm.trans held)
        · have bytes_known := (closed held).digest_eq ▸ covering.stored held
          rw [stored, functional _ _ _ now_known bytes_known]
      · obtain ⟨now, stored, now_known, -⟩ :=
          h.backed_of_reachable functional covering coherent isDone reachable
        rw [functional _ _ _ bytes_known now_known]
        rwa [Store.node?, Store.key_eq_of_keying_eq grown.keying_eq] at stored
  hasNode := h.hasNode_of_reachable functional covering coherent isDone
  codes digest bytes := by
    have grown := h.progress.grown
    refine ⟨grown.codes, ?_⟩
    rintro (held | ⟨absent, reachable, bytes_known⟩)
    · obtain ⟨now, stored⟩ := grown.exists_code held
      rcases grown.codes stored with held' | ⟨absent, -⟩
      · exact stored.trans (held'.symm.trans held)
      · simp [Store.hasCode_eq_isSome_code?, Store.code?, held] at absent
    · have has := h.hasCode_of_reachable functional covering coherent isDone reachable
      rw [Store.hasCode_eq_isSome_code?] at has
      obtain ⟨now, stored⟩ := Option.isSome_iff_exists.mp has
      rcases grown.codes stored with held | ⟨-, -, now_known⟩
      · simp [Store.hasCode_eq_isSome_code?, Store.code?, held] at absent
      · rw [functional _ _ _ bytes_known now_known]
        exact stored
  hasCode := h.hasCode_of_reachable functional covering coherent isDone

theorem nodup_putNodes (h : Tracked H schema kept known root wanted start session) :
    session.putNodes.Nodup := by
  obtain ⟨past, addressed⟩ := h.addressed
  have nodup := addressed.layout.nodup.of_map
  rw [placedNodes] at nodup
  exact nodup.of_append_right.of_append_right.of_append_right

theorem reachable_of_mem_putNodes (h : Tracked H schema kept known root wanted start session)
    (member : occurrence ∈ session.putNodes) :
    Reachable H schema known root occurrence := by
  obtain ⟨bytes, put_mem⟩ := Put.mem_occurrences_iff.mp member
  exact (h.progress.written _ put_mem).1

theorem mem_putNodes_of_reachable (h : Tracked H schema schema known root wanted start session)
    (functional : Functional known) (covering : Covering H start known)
    (coherent : Coherent [] session.scheduler) (isDone : session.scheduler.isDone = true)
    (keying_eq : start.keying = .byPath) (absent : start.hasNode occurrence = false)
    (reachable : Reachable H schema known root occurrence) : occurrence ∈ session.putNodes := by
  have has := h.hasNode_of_reachable functional covering coherent isDone reachable
  rcases h.accounted.stored has with held | ⟨other, member, key_eq⟩
  · simp [absent] at held
  · simp only [Store.key, keying_eq] at key_eq
    exact key_eq ▸ member

end Tracked

/-- A new scheduler for a root, alone on a store, does what it is told. -/
def runOfRoot (H : Hash) (schema : Schema) (start : Store) (root : Digest)
    (actions : List Action) : Except Fault Session := do
  (← ofRoot H start schema root).run H actions

/-- A scheduler for a root, alone on a store, works until it is done. No further tries are added
to it. -/
structure Completes (H : Hash) (schema : Schema) (start : Store) (root : Digest)
    (actions : List Action) (final : Session) : Prop where
  noTrie : ∀ occurrence, .call (.addSubTrie occurrence) ∉ actions
  ran : runOfRoot H schema start root actions = .ok final
  isDone : final.scheduler.isDone = true

theorem exists_completes {α : Type} {f : Session → α} {value : α}
    (noTrie : ∀ occurrence, .call (.addSubTrie occurrence) ∉ actions)
    (ran : (runOfRoot H schema start root actions).map
      (fun session => (session.scheduler.isDone, f session)) = .ok (true, value)) :
    ∃ final, Completes H schema start root actions final ∧ f final = value := by
  obtain ⟨final, final_eq, result_eq⟩ := map_eq_ok.mp ran
  obtain ⟨isDone, value_eq⟩ := Prod.mk.inj result_eq
  exact ⟨final, ⟨noTrie, final_eq, isDone⟩, value_eq⟩

theorem Completes.keeps {P : Session → Prop}
    (completes : Completes H schema start root actions final) (supports : start.Supports kept)
    (closed : start.Closed H kept) (keeps : kept = schema ∨ kept = .plain)
    (functional : Functional known)
    (codes_wanted : ∀ {code}, ReachableCode H schema known root code → wanted code)
    (added : ∀ {digest path}, .call (.addCode digest path) ∈ actions → wanted digest)
    (answered : ∀ bytes ∈ actions.filterMap Action.answer?, known (H bytes) bytes)
    (begins : ∀ {session}, ofRoot H start schema root = .ok session → P session)
    (kept_by : ∀ {session action next}, action ∈ actions → Coherent [] session.scheduler →
      Tracked H schema kept known root wanted start session → P session →
      Step H session action next → P next) :
    Coherent [] final.scheduler ∧
      Tracked H schema kept known root wanted start final ∧ P final := by
  have ran := completes.ran
  unfold runOfRoot at ran
  cases started : ofRoot H start schema root with
  | error fault => simp [started, bind, Except.bind] at ran
  | ok session =>
      rw [started] at ran
      obtain ⟨coherent, tracked⟩ := tracked_ofRoot known codes_wanted supports closed started
      refine run_keeps (P := fun session =>
        Tracked H schema kept known root wanted start session ∧ P session) ?_ coherent
        ⟨tracked, begins started⟩ ran
      rintro _ action _ member coherent ⟨tracked, holds⟩ step
      have fetches : action.Fetches wanted := by
        cases action with
        | commit | rejectWrites => trivial
        | call call =>
            cases call with
            | addSubTrie occurrence => exact absurd member (completes.noTrie occurrence)
            | addCode digest path => exact added member
            | missing | processNode | processCode => trivial
      refine ⟨?_, kept_by member coherent tracked holds step⟩
      refine step.tracked keeps functional coherent codes_wanted fetches ?_ tracked
      exact fun answer => answered _ (List.mem_filterMap.mpr ⟨_, member, answer⟩)

/-- Bytes are held as a node at the start, or are given as an answer. -/
def Involved (start : Store) (actions : List Action) (bytes : Bytes) : Prop :=
  (∃ key : Occurrence, start.nodes[key]? = some bytes) ∨
    bytes ∈ actions.filterMap Action.answer?

/-- Bytes that are involved have a digest. -/
def Preimage (H : Hash) (start : Store) (actions : List Action) (digest : Digest)
    (bytes : Bytes) : Prop :=
  Involved start actions bytes ∧ H bytes = digest

/-- No two of the byte strings that are involved have the same digest. -/
def Collisionless (H : Hash) (start : Store) (actions : List Action) : Prop :=
  ∀ left right, Involved start actions left → Involved start actions right →
    H left = H right → left = right

theorem Collisionless.functional
    (h : Collisionless H start actions) : Functional (Preimage H start actions) := by
  rintro digest left right ⟨left_involved, left_eq⟩ ⟨right_involved, right_eq⟩
  exact h left right left_involved right_involved (left_eq.trans right_eq.symm)

theorem collisionless_empty (keying : Keying)
    (distinct : ∀ left ∈ actions.filterMap Action.answer?,
      ∀ right ∈ actions.filterMap Action.answer?, H left = H right → left = right) :
    Collisionless H (.empty keying) actions := by
  have given {bytes : Bytes} (involved : Involved (.empty keying) actions bytes) :
      bytes ∈ actions.filterMap Action.answer? := by
    rcases involved with ⟨key, held⟩ | given
    · simp [Store.empty] at held
    · exact given
  exact fun left right involved involved' => distinct left (given involved) right (given involved')

theorem covering_preimage (H : Hash) (start : Store) (actions : List Action) :
    Covering H start (Preimage H start actions) where
  digest_eq := fun ⟨_, digest_eq⟩ => digest_eq
  stored held := ⟨.inl ⟨_, held⟩, rfl⟩

theorem preimage_answered (H : Hash) (start : Store) {others : List Action}
    (subset : actions ⊆ others) :
    ∀ bytes ∈ actions.filterMap Action.answer?, Preimage H start others (H bytes) bytes := by
  intro bytes member
  obtain ⟨action, action_mem, answer⟩ := List.mem_filterMap.mp member
  exact ⟨.inr (List.mem_filterMap.mpr ⟨action, subset action_mem, answer⟩), rfl⟩

end Session

end TrieSync
