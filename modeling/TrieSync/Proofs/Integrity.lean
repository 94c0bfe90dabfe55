import TrieSync.Hash.Sha256
import TrieSync.Proofs.Commit
import TrieSync.Proofs.Transcript

namespace TrieSync

open Scheduler

/-- The bytes hash to the digest, and a node can be decoded at its place. -/
def Put.Genuine (H : Hash) (schema : Schema) : Put → Prop
  | node occurrence bytes =>
      H bytes = occurrence.digest ∧
        ∃ references, schema.references H occurrence.path bytes = .ok references
  | code digest bytes => H bytes = digest

namespace Scheduler

variable {H : Hash} {store : Store} {schema : Schema} {root : Digest} {task : Task}
  {tasks new : List Task} {scheduler after start : Scheduler} {call : Call}

/-- Whatever is staged or to be staged is genuine, and so are all bytes that may be copied to
further places. -/
structure Authentic (H : Hash) (schema : Schema) (tasks : List Task) (scheduler : Scheduler) :
    Prop where
  holds : Holds schema (Hashes H) tasks scheduler
  staged : ∀ {path : Path} {digest bytes}, scheduler.staging.nodes[path]? = some (digest, bytes) →
    Put.Genuine H schema (.node ⟨path, digest⟩ bytes)
  fetched : ∀ {id request bytes}, scheduler.requests.live? id = some request →
    request.bytes = some bytes → Put.Genuine H schema (.node request.occurrence bytes)
  codes : ∀ {digest : Digest} {bytes}, scheduler.staging.codes[digest]? = some bytes →
    Put.Genuine H schema (.code digest bytes)

namespace Authentic

theorem step (h : Authentic H schema (task :: tasks) scheduler)
    (coherent : Coherent (task :: tasks) scheduler) (step : Step H store scheduler task new after) :
    Authentic H schema (new ++ tasks) after where
  holds := h.holds.step coherent step
  staged {path digest bytes} staged := by
    rcases step.staged_cases staged with
      staged | ⟨id, request, -, live, -, known_eq, occurrence_eq⟩
    · exact h.staged staged
    · exact occurrence_eq ▸ h.fetched live known_eq
  fetched {id request bytes} live known_eq := by
    rcases step.fetched_cases coherent.counted.wellFormed live known_eq with
      ⟨old, old_live, occurrence_eq, old_eq⟩ | ⟨parents, references, rfl, decoded, -⟩
    · exact occurrence_eq ▸ h.fetched old_live old_eq
    · rw [h.holds.schema_eq] at decoded
      exact ⟨h.holds.placed List.mem_cons_self, references, decoded⟩
  codes staged := h.codes (step.staged_codes ▸ staged)

theorem works (h : Authentic H schema tasks scheduler) (coherent : Coherent tasks scheduler)
    (works : Works H store tasks scheduler after) : Authentic H schema [] after :=
  (works.keeps _ (fun coherent authentic step => Authentic.step authentic coherent step) coherent h).2

theorem turn (h : Authentic H schema [] scheduler) (turn : Turn H scheduler call tasks start) :
    Authentic H schema tasks start where
  holds := h.holds.turn turn fun _ => rfl
  staged staged := h.staged (turn.nodes_eq ▸ staged)
  fetched live known_eq := by
    rcases turn.fetched_cases live known_eq with
      ⟨old, old_live, occurrence_eq, old_eq⟩ | ⟨references, -, digest_eq, decoded, -⟩
    · exact occurrence_eq ▸ h.fetched old_live old_eq
    · exact ⟨digest_eq, references, h.holds.schema_eq ▸ decoded⟩
  codes {digest bytes} staged := by
    cases turn with
    | addSubTrie | addCode | missing => exact h.codes staged
    | processNode => exact h.codes (by simpa [received] using staged)
    | processCode inFlight digest_eq =>
        rw [Staging.insertCode, Entries.getElem?_insert] at staged
        split at staged
        · rename_i same
          exact (Option.some.inj staged ▸ digest_eq).trans same
        · exact h.codes staged

theorem commit (h : Authentic H schema [] scheduler) :
    Authentic H schema [] { scheduler with staging := .empty } where
  holds := h.holds.commit
  staged staged := by simp [Staging.empty] at staged
  fetched := h.fetched
  codes staged := by simp [Staging.empty] at staged

theorem ofRoot (H : Hash) (schema : Schema) (root : Digest) :
    Authentic H schema [.node none ⟨.root, root⟩] (idle schema) where
  holds := ⟨rfl, (holds_idle schema (Hashes H)).knows, by simp⟩
  staged staged := by simp [idle, Staging.empty] at staged
  fetched live := by simp [idle, RequestTable.empty, RequestTable.live?] at live
  codes staged := by simp [idle, Staging.empty] at staged

theorem puts (h : Authentic H schema tasks scheduler) :
    ∀ put ∈ scheduler.staging.puts, put.Genuine H schema := by
  intro put member
  cases put with
  | node occurrence bytes => exact h.staged (Staging.node_mem_puts_iff.mp member)
  | code digest bytes => exact h.codes (Staging.code_mem_puts_iff.mp member)

end Authentic

/-- The puts of a commit are left in its batch, or written after those that it held before. -/
def Flushes (puts : List Put) (batch : Batch) (store : Store) (commit : Commit) : Prop :=
  commit.batch = batch.append puts ∧ commit.store = store ∨
    commit.batch = .empty ∧ commit.store = store.putAll (batch.append puts).puts

theorem commit_flushes (scheduler : Scheduler) (batch : Batch) (store : Store) :
    Flushes scheduler.staging.puts batch store (scheduler.commit batch store) := by
  unfold Scheduler.commit
  split
  · rename_i nothing
    refine .inl ⟨?_, rfl⟩
    rw [Staging.puts_eq_nil_of_isEmpty nothing, Batch.append, List.append_nil]
  · unfold Store.write
    cases store.rejecting with
    | true => exact .inl ⟨rfl, rfl⟩
    | false => exact .inr ⟨rfl, rfl⟩

/-- A scheduler puts only what is genuine, whichever store and batch it commits to, however its
calls went and whatever they were given. -/
theorem commit_genuine_of_life {deeds : List Deed} {said : List Message}
    (lived : life H store schema root deeds = .ok (scheduler, said)) :
    (∀ put ∈ scheduler.staging.puts, put.Genuine H schema) ∧
      ∀ batch target,
        Flushes scheduler.staging.puts batch target (scheduler.commit batch target) := by
  have authentic : Authentic H schema [] scheduler :=
    (life_keeps (P := fun scheduler _ => Authentic H schema [] scheduler)
      (fun works => (Authentic.ofRoot H schema root).works
        (coherent_node (coherent_idle schema) _) works)
      (fun _ _ authentic acts => by
        cases acts with
        | refuse | commitNothing => exact authentic
        | perform _ turn coherent works => exact (authentic.turn turn).works coherent works
        | commit => exact authentic.commit) lived).2
  exact ⟨authentic.puts, commit_flushes scheduler⟩

/-- Two tries claim a place of a sub-trie for different leaves, one of which is also referred to from
the root trie, where it cannot be decoded. Some answers are wrong. -/
theorem commit_genuine_of_life_conflicting :
    let leaf : Bytes := (Node.leaf [1, 2] [7]).encode
    let other : Bytes := (Node.leaf [9] [8]).encode
    let upper : Bytes := (Node.extension [5] (Hash.sha256 leaf)).encode
    let root : Bytes := (Node.extension [3] (Hash.sha256 leaf)).encode
    let key : Digest := Hash.sha256 []
    let code : Bytes := [0xc0, 0xde]
    let store : Store := .empty .byPath
    let deeds : List Deed :=
      [.addSubTrie ⟨⟨.account key, [5]⟩, Hash.sha256 other⟩,
        .addSubTrie ⟨.subTrie key, Hash.sha256 upper⟩, .addCode (Hash.sha256 code) .root, .missing 0,
        .processNode ⟨.account key, [5]⟩ leaf, .processNode ⟨.account key, [5]⟩ other,
        .processNode (.subTrie key) upper, .missing 0, .processNode ⟨.account key, [5]⟩ leaf,
        .processNode .root root, .missing 0, .processNode ⟨.root, [3]⟩ leaf,
        .processCode (Hash.sha256 code) leaf, .processCode (Hash.sha256 code) code].map (.call store)
    ∃ scheduler said, life Hash.sha256 store .accounts (Hash.sha256 root) deeds =
        .ok (scheduler, said) ∧
      scheduler.staging.puts =
        [.node ⟨.subTrie key, Hash.sha256 upper⟩ upper,
          .node ⟨⟨.account key, [5]⟩, Hash.sha256 leaf⟩ leaf, .code (Hash.sha256 code) code] ∧
      ∀ put ∈ scheduler.staging.puts, put.Genuine Hash.sha256 .accounts := by
  intro leaf other upper root key code store deeds
  have puts_eq : (life Hash.sha256 store .accounts (Hash.sha256 root) deeds).map
      (fun run => run.1.staging.puts) =
        .ok [.node ⟨.subTrie key, Hash.sha256 upper⟩ upper,
          .node ⟨⟨.account key, [5]⟩, Hash.sha256 leaf⟩ leaf, .code (Hash.sha256 code) code] := by
    decide +kernel
  obtain ⟨⟨scheduler, said⟩, lived, puts_eq⟩ := map_eq_ok.mp puts_eq
  exact ⟨scheduler, said, lived, puts_eq, (commit_genuine_of_life lived).1⟩

end Scheduler

end TrieSync
