import TrieSync.Hash.Quick
import TrieSync.Proofs.Ledger

/-!
Tries that are added to a scheduler may claim one place for two different nodes. The node that is
staged there last is written, and the other one is lost, even if it is missing below a node that
counted it as complete. Nothing else is ever missing in a store.
-/

namespace TrieSync

open Scheduler

namespace Scheduler

variable {H : Hash} {store next : Store} {tasks : List Task} {scheduler start after : Scheduler}
  {call : Call} {spared : Occurrence → Prop} {node : Occurrence}

theorem HasNode.works (h : HasNode store scheduler node) (coherent : Coherent tasks scheduler)
    (works : Works H store tasks scheduler after) : HasNode store after node :=
  (works.keeps (fun _ scheduler => HasNode store scheduler node) (fun _ has step => has.step step)
    coherent h).2

theorem SoundBut.commit {more : Occurrence → Prop} (h : SoundBut H store spared [] scheduler)
    (nodes : ∀ {node}, HasNode store scheduler node ∨ spared node →
      next.hasNode node = true ∨ more node)
    (codes : ∀ {code}, HasCode store scheduler code → next.hasCode code = true) :
    SoundBut H next more [] { scheduler with staging := .empty } where
  staged staged := by simp [Staging.empty] at staged
  fetched live known := (h.fetched live known).mono
    (fun _ has => .inr (has.imp_left fun has => (nodes has).imp_left .inl))
    fun _ has => has.imp_left fun has => .inl (codes has)

end Scheduler

namespace Session

variable {H : Hash} {schema : Schema} {root : Digest} {start : Store} {session next : Session}
  {action : Action} {actions : List Action} {node occurrence : Occurrence} {bytes : Bytes}

/-- Another node was put at the place of a node. -/
def Displaced (session : Session) (node : Occurrence) : Prop :=
  ∃ other ∈ session.putNodes, other.path = node.path ∧ other.digest ≠ node.digest

/-- Every node that is stored, in a batch or staged misses nothing that it refers to but what was
displaced. -/
structure ClosedBut (H : Hash) (schema : Schema) (session : Session) : Prop where
  /-- If the store ignores places, then this is true at one of those that a node was put at. -/
  stored : ∀ {occurrence bytes}, session.store.node? occurrence = some bytes →
    ∃ place, session.store.key place = session.store.key occurrence ∧
      Backed H schema (fun node => session.store.hasNode node = true ∨ session.Displaced node)
        (fun code => session.store.hasCode code = true) place bytes
  batched : ∀ {number occurrence bytes}, .node occurrence bytes ∈ (session.batches number).puts →
    Backed H schema
      (fun node => HasNode session.store session.scheduler node ∨ session.Displaced node)
      (HasCode session.store session.scheduler) occurrence bytes
  holds : Holds schema (Hashes H) [] session.scheduler
  sound : SoundBut H session.store session.Displaced [] session.scheduler

namespace ClosedBut

theorem ofRoot (closed : start.Closed H schema) (started : ofRoot H start schema root = .ok session) :
    Coherent [] session.scheduler ∧ ClosedBut H schema session := by
  obtain ⟨scheduler, scheduler_eq, same⟩ := bind_eq_ok.mp started
  obtain rfl := Except.ok.inj same
  have coherent := coherent_node (coherent_idle schema) ⟨.root, root⟩
  have works := works_of_ofRoot scheduler_eq
  have turn : Turn H (idle schema) (.addSubTrie ⟨.root, root⟩) [.node none ⟨.root, root⟩]
      (idle schema) := .addSubTrie
  have holds := (holds_idle schema (Hashes H)).turn turn fun _ => rfl
  refine ⟨works.coherent coherent, ?_, by simp [Batch.empty], holds.works coherent works, ?_⟩
  · intro occurrence bytes stored
    exact ⟨occurrence, rfl, (closed stored).mono (fun _ held => .inr (.inl held)) fun _ => id⟩
  · exact (((sound_idle H start schema).but _).turn turn).works coherent holds (fun _ _ => id) works

theorem staged (h : ClosedBut H schema session)
    (member : .node occurrence bytes ∈ session.scheduler.staging.puts) :
    Backed H schema
      (fun node => HasNode session.store session.scheduler node ∨ session.Displaced node)
      (HasCode session.store session.scheduler) occurrence bytes := by
  rw [← h.holds.schema_eq]
  exact h.sound.staged (Staging.node_mem_puts_iff.mp member)

theorem filled (h : ClosedBut H schema session) {batch : Nat}
    (member : .node occurrence bytes ∈
      ((session.batches batch).append session.scheduler.staging.puts).puts) :
    Backed H schema
      (fun node => HasNode session.store session.scheduler node ∨ session.Displaced node)
      (HasCode session.store session.scheduler) occurrence bytes :=
  (List.mem_append.mp member).elim h.batched h.staged

end ClosedBut

section Commit

variable {batch : Nat}
  (store_eq : next.store =
    session.store.putAll ((session.batches batch).append session.scheduler.staging.puts).puts)
  (written_eq : next.written = session.written ++ session.scheduler.staging.puts)

include written_eq in
private theorem putNodes_commit : next.putNodes = session.putNodes ++
    session.scheduler.staging.puts.filterMap Put.occurrence? := by
  simp only [putNodes, written_eq, List.filterMap_append]

include store_eq in
private theorem includes_commit : next.store.Includes session.store :=
  store_eq ▸ Store.includes_putAll _ _

include store_eq in
private theorem hasCode_commit {code : Digest}
    (has : HasCode session.store session.scheduler code) : next.store.hasCode code = true := by
  rcases has.stored_or_puts with held | ⟨bytes, put⟩
  · exact (includes_commit store_eq).hasCode held
  · rw [store_eq]
    exact (Store.hasCode_putAll _ _ _).mpr (.inr ⟨bytes, List.mem_append_right _ put⟩)

include written_eq in
private theorem displaced_commit (displaced : session.Displaced node) : next.Displaced node := by
  obtain ⟨other, other_mem, facts⟩ := displaced
  exact ⟨other, putNodes_commit written_eq ▸ List.mem_append_left _ other_mem, facts⟩

include store_eq written_eq in
/-- What is staged at a place is written there, and displaces any other node. -/
private theorem hasNode_or_displaced_commit
    (has : HasNode session.store session.scheduler node ∨ session.Displaced node) :
    next.store.hasNode node = true ∨ next.Displaced node := by
  rcases has with (held | staged) | displaced
  · exact .inl ((includes_commit store_eq).hasNode held)
  · obtain ⟨digest, digestAt_eq⟩ := Option.isSome_iff_exists.mp staged
    obtain ⟨bytes, found⟩ := Staging.digestAt?_eq_some_iff.mp digestAt_eq
    have put := Staging.node_mem_puts found
    by_cases same : digest = node.digest
    · subst same
      rw [store_eq]
      exact .inl ((Store.hasNode_putAll _ _ _).mpr
        (.inr ⟨_, bytes, List.mem_append_right _ put, rfl⟩))
    · refine .inr ⟨⟨node.path, digest⟩, ?_, rfl, same⟩
      rw [putNodes_commit written_eq]
      exact List.mem_append_right _ (Put.mem_occurrences_iff.mpr ⟨bytes, put⟩)
  · exact .inr (displaced_commit written_eq displaced)

include store_eq written_eq in
theorem ClosedBut.commit (h : ClosedBut H schema session)
    (scheduler_eq : next.scheduler = { session.scheduler with staging := .empty })
    (batches_eq : next.batches = Function.update session.batches batch .empty) :
    ClosedBut H schema next := by
  have includes := includes_commit store_eq
  have key_eq (occurrence : Occurrence) : next.store.key occurrence = session.store.key occurrence :=
    Store.key_eq_of_keying_eq includes.keying_eq occurrence
  have nodes {node : Occurrence}
      (has : HasNode session.store session.scheduler node ∨ session.Displaced node) :
      next.store.hasNode node = true ∨ next.Displaced node :=
    hasNode_or_displaced_commit store_eq written_eq has
  have codes {code : Digest} (has : HasCode session.store session.scheduler code) :
      next.store.hasCode code = true := hasCode_commit store_eq has
  refine ⟨?_, ?_, scheduler_eq ▸ h.holds.commit, scheduler_eq ▸ h.sound.commit nodes codes⟩
  · intro occurrence bytes stored
    rw [Store.node?, key_eq, store_eq] at stored
    rcases Store.getElem?_nodes_putAll stored with held | ⟨place, member, place_eq⟩
    · obtain ⟨place, place_eq, backed⟩ := h.stored held
      exact ⟨place, by rw [key_eq, key_eq, place_eq], backed.mono
        (fun _ has => .inr (has.imp includes.hasNode (displaced_commit written_eq)))
        fun _ => includes.hasCode⟩
    · exact ⟨place, by rw [key_eq, key_eq, place_eq], (h.filled member).mono
        (fun _ has => .inr (nodes has)) fun _ has => codes has⟩
  · intro number occurrence bytes member
    rw [batches_eq] at member
    exact (h.batched (Batch.mem_of_emptied member).2).mono
      (fun _ has => .inr ((nodes has).imp_left .inl)) fun _ has => .inl (codes has)

end Commit

theorem ClosedBut.step (h : ClosedBut H schema session) (step : Step H session action next) :
    ClosedBut H schema next := by
  cases step with
  | refuse | commitNothing => exact h
  | rejectWrites =>
      exact ⟨h.stored, h.batched, h.holds, ⟨h.sound.staged, h.sound.fetched⟩⟩
  | @perform call tasks begun after turn coherent works =>
      have holds := h.holds.turn turn fun _ => rfl
      refine ⟨h.stored, ?_, holds.works coherent works,
        (h.sound.turn turn).works coherent holds (fun _ _ => id) works⟩
      intro number occurrence bytes member
      exact (h.batched member).mono
        (fun _ has => .inr (has.imp_left fun has => (has.turn turn).works coherent works))
        fun _ has => (has.turn turn).works coherent works
  | @commitRefused batch =>
      refine ⟨h.stored, ?_, h.holds, h.sound⟩
      intro number occurrence bytes member
      rcases Batch.mem_filled_cases member with batched | ⟨-, staged⟩
      · exact h.batched batched
      · exact h.staged staged
  | @commit batch accepting => exact h.commit rfl rfl rfl rfl

/-- Whatever a scheduler is told, and whichever tries are added to it, nothing is missing below a
node that is stored but what was displaced. -/
theorem backed_or_displaced_of_run (closed : start.Closed H schema)
    (ran : runOfRoot H schema start root actions = .ok session)
    (stored : session.store.node? occurrence = some bytes) :
    ∃ place, session.store.key place = session.store.key occurrence ∧
      Backed H schema (fun node => session.store.hasNode node = true ∨ session.Displaced node)
        (fun code => session.store.hasCode code = true) place bytes := by
  obtain ⟨first, started, ran⟩ := bind_eq_ok.mp ran
  obtain ⟨coherent, begins⟩ := ClosedBut.ofRoot closed started
  exact (run_keeps (fun _ _ h step => h.step step) coherent begins ran).2.stored stored

/-! A trie is added at a place where the root, which is given later, has another node. Both nodes
have a child at one place, and the second child is staged over the first one, which the added trie
counts as complete. -/

namespace OverlappingTries

def leaf (value : UInt8) : Bytes :=
  (Node.leaf (List.replicate 62 5) [value]).encode

def added : Bytes :=
  (Node.fork (5, quickHash (leaf 1)) (7, quickHash (leaf 2))).encode

def inner : Bytes :=
  (Node.fork (5, quickHash (leaf 3)) (6, quickHash (leaf 4))).encode

def top : Bytes :=
  (Node.fork (1, quickHash inner)
    (2, quickHash (Node.leaf (List.replicate 63 5) [5]).encode)).encode

/-- Each node is asked for before it is given. -/
def overlap : List Action :=
  .call (.addSubTrie ⟨⟨.root, [1]⟩, quickHash added⟩) ::
    [([1], added), ([1, 5], leaf 1), ([1, 7], leaf 2), ([], top), ([1], inner),
      ([1, 5], leaf 3)].flatMap (fun (nibbles, bytes) =>
      [.call (.missing 0), .call (.processNode ⟨.root, nibbles⟩ bytes)]) ++ [.commit 0]

private theorem overlap_ran (keying : Keying) :
    ∃ session said,
      transcript quickHash .plain (.empty keying) (quickHash top) overlap =
        .ok (session, said) ∧
      .askedNode ⟨⟨.root, [1]⟩, quickHash added⟩ ∈ said ∧
      said.filterMap Message.answer? = [added, leaf 1, leaf 2, top, inner, leaf 3] ∧
      session.store.node? ⟨⟨.root, [1]⟩, quickHash added⟩ = some added ∧
      session.store.hasNode ⟨⟨.root, [1, 5]⟩, quickHash (leaf 1)⟩ = false ∧
      ⟨⟨.root, [1, 5]⟩, quickHash (leaf 3)⟩ ∈ session.putNodes ∧
      session.store.keying = keying := by
  have ran_eq : (transcript quickHash .plain (.empty keying) (quickHash top) overlap).map
      (fun run => (decide (.askedNode ⟨⟨.root, [1]⟩, quickHash added⟩ ∈ run.2 ∧
          ⟨⟨.root, [1, 5]⟩, quickHash (leaf 3)⟩ ∈ run.1.putNodes ∧ run.1.store.keying = keying),
        run.2.filterMap Message.answer?, run.1.store.node? ⟨⟨.root, [1]⟩, quickHash added⟩,
        run.1.store.hasNode ⟨⟨.root, [1, 5]⟩, quickHash (leaf 1)⟩)) =
      .ok (true, [added, leaf 1, leaf 2, top, inner, leaf 3], some added, false) := by
    cases keying <;> decide +kernel
  obtain ⟨⟨session, said⟩, ran, facts⟩ := map_eq_ok.mp ran_eq
  simp only [Prod.mk.injEq, decide_eq_true_eq] at facts
  obtain ⟨⟨asked, put, keying_eq⟩, answered, stored, absent⟩ := facts
  exact ⟨session, said, ran, asked, answered, stored, absent, put, keying_eq⟩

private theorem digests_overlap :
    Schema.references .plain quickHash ⟨.root, [1]⟩ added =
      .ok ⟨[⟨⟨.root, [1, 5]⟩, quickHash (leaf 1)⟩, ⟨⟨.root, [1, 7]⟩, quickHash (leaf 2)⟩], []⟩ ∧
    quickHash (leaf 1) ≠ emptyRoot quickHash ∧ quickHash (leaf 3) ≠ quickHash (leaf 1) := by
  decide +kernel

/-- A trie is accepted, every node is given as it is asked for, and a node is stored without its
child. -/
def LosesChild (keying : Keying) : Prop :=
  ∃ session said references,
    transcript quickHash .plain (.empty keying) (quickHash top) overlap = .ok (session, said) ∧
    .askedNode ⟨⟨.root, [1]⟩, quickHash added⟩ ∈ said ∧
    said.filterMap Message.answer? = [added, leaf 1, leaf 2, top, inner, leaf 3] ∧
    session.store.node? ⟨⟨.root, [1]⟩, quickHash added⟩ = some added ∧
    Schema.references .plain quickHash ⟨.root, [1]⟩ added = .ok references ∧
    ⟨⟨.root, [1, 5]⟩, quickHash (leaf 1)⟩ ∈ references.nodes ∧
    quickHash (leaf 1) ≠ emptyRoot quickHash ∧
    session.store.hasNode ⟨⟨.root, [1, 5]⟩, quickHash (leaf 1)⟩ = false

theorem missing_child_of_overlap : LosesChild .byDigest ∧ LosesChild .byPath := by
  have loses (keying : Keying) : LosesChild keying := by
    obtain ⟨session, said, ran, asked, answered, stored, absent, -⟩ := overlap_ran keying
    obtain ⟨references_eq, not_empty, -⟩ := digests_overlap
    exact ⟨session, said, _, ran, asked, answered, stored, references_eq, List.mem_cons_self,
      not_empty, absent⟩
  exact ⟨loses .byDigest, loses .byPath⟩

/-- The child that is not stored was displaced. -/
theorem backed_or_displaced_of_overlap :
    ∃ session, (Store.empty .byPath).Closed quickHash .plain ∧
      runOfRoot quickHash .plain (.empty .byPath) (quickHash top) overlap = .ok session ∧
      session.store.node? ⟨⟨.root, [1]⟩, quickHash added⟩ = some added ∧
      session.Displaced ⟨⟨.root, [1, 5]⟩, quickHash (leaf 1)⟩ ∧
      Backed quickHash .plain
        (fun node => session.store.hasNode node = true ∨ session.Displaced node)
        (fun code => session.store.hasCode code = true) ⟨⟨.root, [1]⟩, quickHash added⟩ added := by
  obtain ⟨session, said, ran, -, -, stored, -, put, keying_eq⟩ := overlap_ran .byPath
  have ran : runOfRoot quickHash .plain (.empty .byPath) (quickHash top) overlap =
      .ok session := by
    rw [← map_transcript, ran]
    rfl
  have closed : (Store.empty .byPath).Closed quickHash .plain := Store.closed_empty _ _ _
  have other := digests_overlap.2.2
  obtain ⟨place, key_eq, backed⟩ := backed_or_displaced_of_run closed ran stored
  simp only [Store.key, keying_eq] at key_eq
  subst key_eq
  exact ⟨session, closed, ran, stored, ⟨_, put, rfl, other⟩, backed⟩

end OverlappingTries

end Session

end TrieSync
