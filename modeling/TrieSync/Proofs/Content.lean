import TrieSync.Proofs.Commit
import TrieSync.Proofs.Reachability

namespace TrieSync

namespace Store

/-- A store holds what another one holds, and what was wanted. -/
structure Grown (wanted : Put → Prop) (store start : Store) : Prop where
  keying_eq : store.keying = start.keying
  nodes_kept : ∀ {key}, start.nodes.contains key = true → store.nodes.contains key = true
  codes_kept : ∀ {digest}, start.codes.contains digest = true → store.codes.contains digest = true
  nodes : ∀ {key : Occurrence} {bytes}, store.nodes[key]? = some bytes →
    start.nodes[key]? = some bytes ∨
      ∃ occurrence, wanted (.node occurrence bytes) ∧ start.key occurrence = key
  codes : ∀ {digest : Digest} {bytes}, store.codes[digest]? = some bytes →
    start.codes[digest]? = some bytes ∨ wanted (.code digest bytes)

namespace Grown

variable {wanted : Put → Prop} {start store : Store}

theorem refl (wanted : Put → Prop) (start : Store) : Grown wanted start start :=
  ⟨rfl, id, id, .inl, .inl⟩

theorem includes (h : Grown wanted store start) : store.Includes start where
  keying_eq := h.keying_eq
  hasNode held := by
    rw [hasNode, key_eq_of_keying_eq h.keying_eq]
    exact h.nodes_kept held
  hasCode := h.codes_kept

theorem exists_node (h : Grown wanted store start) {key : Occurrence} {bytes : Bytes}
    (held : start.nodes[key]? = some bytes) : ∃ now, store.nodes[key]? = some now := by
  have contains : start.nodes.contains key = true := by
    rw [Std.TreeMap.contains_eq_isSome_getElem?, held]
    rfl
  exact Option.isSome_iff_exists.mp
    (Std.TreeMap.contains_eq_isSome_getElem?.symm.trans (h.nodes_kept contains))

theorem exists_code (h : Grown wanted store start) {digest : Digest} {bytes : Bytes}
    (held : start.codes[digest]? = some bytes) : ∃ now, store.codes[digest]? = some now := by
  have contains : start.codes.contains digest = true := by
    rw [Std.TreeMap.contains_eq_isSome_getElem?, held]
    rfl
  exact Option.isSome_iff_exists.mp
    (Std.TreeMap.contains_eq_isSome_getElem?.symm.trans (h.codes_kept contains))

theorem putAll (h : Grown wanted store start) {puts : List Put}
    (puts_wanted : ∀ put ∈ puts, wanted put) : Grown wanted (store.putAll puts) start where
  keying_eq := (keying_putAll store puts).trans h.keying_eq
  nodes_kept held := (contains_nodes_putAll store puts _).mpr (.inl (h.nodes_kept held))
  codes_kept held := (hasCode_putAll store puts _).mpr (.inl (h.codes_kept held))
  nodes held := by
    rcases getElem?_nodes_putAll held with held | ⟨other, put, key_eq⟩
    · exact h.nodes held
    · exact .inr ⟨other, puts_wanted _ put, by rwa [← key_eq_of_keying_eq h.keying_eq]⟩
  codes held := by
    rcases getElem?_codes_putAll held with held | put
    · exact h.codes held
    · exact .inr (puts_wanted _ put)

end Grown

end Store

open Scheduler

namespace Scheduler

variable {H : Hash} {store : Store} {task : Task} {tasks new : List Task}
  {scheduler after : Scheduler} {occurrence : Occurrence}

/-- A node is there already, or waits at its place. -/
def Attended (H : Hash) (store : Store) (tasks : List Task) (scheduler : Scheduler)
    (occurrence : Occurrence) : Prop :=
  occurrence.digest = emptyRoot H ∨ HasNode store scheduler occurrence ∨
    Expects tasks scheduler none occurrence

theorem Attended.works (h : Attended H store tasks scheduler occurrence)
    (coherent : Coherent tasks scheduler) (works : Works H store tasks scheduler after) :
    Attended H store [] after occurrence := by
  refine (works.keeps (fun tasks scheduler => Attended H store tasks scheduler occurrence) ?_
    coherent h).2
  rintro _ _ _ _ _ coherent (empty | has | expects) step
  · exact .inl empty
  · exact .inr (.inl (has.step step))
  · exact expects.step coherent step

theorem Attended.turn {call : Call} {begun : Scheduler}
    (h : Attended H store [] scheduler occurrence) (turn : Turn H scheduler call tasks begun) :
    Attended H store tasks begun occurrence :=
  h.imp_right (.imp (·.turn turn) (·.turn turn))

theorem Addressed.digestAt?_step {path : Path} {digest : Digest} {past : List Occurrence}
    (addressed : Addressed H (task :: tasks) scheduler past)
    (step : Step H store scheduler task new after)
    (staged : scheduler.staging.digestAt? path = some digest) :
    after.staging.digestAt? path = some digest := by
  rcases step.staging_cases with staging_eq | ⟨id, request, bytes, -, live, -, known, staging_eq⟩
  · rwa [staging_eq]
  · rw [staging_eq, Staging.digestAt?_insertNode, if_neg, staged]
    rintro rfl
    simp [Staging.digestAt?, addressed.notMem_staged live known] at staged

theorem Addressed.digestAt?_works {path : Path} {digest : Digest} {past : List Occurrence}
    (addressed : Addressed H tasks scheduler past) (coherent : Coherent tasks scheduler)
    (works : Works H store tasks scheduler after)
    (staged : scheduler.staging.digestAt? path = some digest) :
    after.staging.digestAt? path = some digest := by
  refine (works.keeps (fun tasks scheduler => (∃ past, Addressed H tasks scheduler past) ∧
    scheduler.staging.digestAt? path = some digest) ?_ coherent ⟨⟨_, addressed⟩, staged⟩).2.2
  rintro _ _ _ _ _ coherent ⟨⟨past, addressed⟩, staged⟩ step
  exact ⟨(addressed.step coherent step).imp' _ fun _ => id, addressed.digestAt?_step step staged⟩

theorem live?_eq_none_of_isDone (coherent : Coherent [] scheduler)
    (isDone : scheduler.isDone = true) (id : RequestId) : scheduler.requests.live? id = none := by
  simp only [Scheduler.isDone, pending, Bool.and_eq_true, decide_eq_true_eq,
    Nat.add_eq_zero_iff] at isDone
  have requests_eq : scheduler.requests.requests = [] := by
    rw [← List.length_eq_zero_iff, coherent.counted.wellFormed.length_requests]
    exact isDone.1.1
  cases live : scheduler.requests.live? id with
  | none => rfl
  | some request =>
      have member := RequestTable.mem_requests_iff.mpr ⟨id, live⟩
      simp [requests_eq] at member

theorem Attended.stored_of_isDone (h : Attended H store [] scheduler occurrence)
    (coherent : Coherent [] scheduler) (isDone : scheduler.isDone = true)
    (digest_ne : occurrence.digest ≠ emptyRoot H) : store.hasNode occurrence = true := by
  rcases (h.resolve_left digest_ne) with (stored | staged) | waits | ⟨task, member, -⟩
  · exact stored
  · obtain ⟨digest, digestAt_eq⟩ := Option.isSome_iff_exists.mp staged
    obtain ⟨bytes, found⟩ := Staging.digestAt?_eq_some_iff.mp digestAt_eq
    have put := Staging.node_mem_puts found
    simp only [Scheduler.isDone, Bool.and_eq_true] at isDone
    simp [Staging.puts_eq_nil_of_isEmpty isDone.2] at put
  · obtain ⟨id, request, parents, live, -⟩ := waits
    simp [live?_eq_none_of_isDone coherent isDone id] at live
  · simp at member

end Scheduler

/-- An action that adds no trie, and no code but what is wanted. -/
def Action.Fetches (wanted : Digest → Prop) : Action → Prop
  | .call asked => asked.Fetches wanted
  | .commit _ | .rejectWrites _ => True

def Action.answer? : Action → Option Bytes
  | .call asked => asked.answer?
  | .commit _ | .rejectWrites _ => none

namespace Session

variable {H : Hash} {schema : Schema} {known : Digest → Bytes → Prop} {root : Digest}
  {wanted : Digest → Prop} {start : Store} {session next : Session} {action : Action}

/-- All that was written or is to be written is reachable, and the root is not lost. -/
structure Progress (H : Hash) (schema : Schema) (known : Digest → Bytes → Prop) (root : Digest)
    (wanted : Digest → Prop) (start : Store) (session : Session) : Prop where
  holds : Holds schema known [] session.scheduler
  within : Within H schema known root wanted start [] session.scheduler
  batches : ∀ {number}, ∀ put ∈ (session.batches number).puts,
    put.Wanted H schema known root wanted start
  written : ∀ put ∈ session.written, put.Wanted H schema known root wanted start
  grown : session.store.Grown (Put.Wanted H schema known root wanted start) start
  attended : Attended H session.store [] session.scheduler ⟨.root, root⟩

theorem Progress.puts (h : Progress H schema known root wanted start session) (batch : Nat) :
    ∀ put ∈ ((session.batches batch).append session.scheduler.staging.puts).puts,
      put.Wanted H schema known root wanted start := by
  intro put member
  rcases List.mem_append.mp member with member | member
  · exact h.batches put member
  · exact h.within.puts member

private theorem Progress.attended_commit (functional : Functional known)
    (h : Progress H schema known root wanted start session) (batch : Nat) :
    Attended H
      (session.store.putAll ((session.batches batch).append session.scheduler.staging.puts).puts) []
      { session.scheduler with staging := .empty } ⟨.root, root⟩ := by
  rcases h.attended with empty | (stored | staged) | expects
  · exact .inl empty
  · exact .inr (.inl (.inl ((Store.hasNode_putAll _ _ _).mpr (.inl stored))))
  · obtain ⟨digest, digestAt_eq⟩ := Option.isSome_iff_exists.mp staged
    obtain ⟨bytes, found⟩ := Staging.digestAt?_eq_some_iff.mp digestAt_eq
    obtain ⟨reachable, -⟩ := h.within.bodies (Addressed.mem_bodies_of_staged found)
    have same := reachable.eq_of_path_eq functional ⟨reachable.1, .refl⟩ rfl
    rw [← same]
    refine .inr (.inl (.inl ((Store.hasNode_putAll _ _ _).mpr (.inr ⟨_, bytes, ?_, rfl⟩))))
    exact List.mem_append_right _ (Staging.node_mem_puts found)
  · exact .inr (.inr expects)

theorem Step.progress {past : List Occurrence} (step : Step H session action next)
    (functional : Functional known) (coherent : Coherent [] session.scheduler)
    (addressed : Addressed H [] session.scheduler past)
    (codes_wanted : ∀ {code}, ReachableCode H schema known root code → wanted code)
    (fetches : action.Fetches wanted)
    (answered : ∀ {bytes}, action.answer? = some bytes → known (H bytes) bytes)
    (h : Progress H schema known root wanted start session) :
    Progress H schema known root wanted start next := by
  have filled {batch number : Nat} {put : Put} (member : put ∈ (Function.update session.batches batch
      ((session.batches batch).append session.scheduler.staging.puts) number).puts) :
      put.Wanted H schema known root wanted start := by
    rcases Batch.mem_filled_cases member with batched | ⟨-, staged⟩
    · exact h.batches put batched
    · exact h.within.puts staged
  cases step with
  | refuse | commitNothing => exact h
  | @perform call tasks begun after turn begun_coherent works =>
      have no_trie occurrence (same : call = .addSubTrie occurrence) : False := by
        subst same
        exact fetches
      obtain ⟨opened, begun_addressed⟩ := addressed.turn coherent no_trie turn
      have begun_holds := h.holds.turn turn fun same => answered (same ▸ rfl)
      have begun_within := h.within.turn coherent h.holds.schema_eq codes_wanted fetches
        answered turn
      exact ⟨begun_holds.works begun_coherent works,
        begun_within.works begun_coherent begun_addressed begun_holds h.grown.includes
          codes_wanted works,
        h.batches, h.written, h.grown, (h.attended.turn turn).works begun_coherent works⟩
  | commitRefused => exact ⟨h.holds, h.within, fun _ => filled, h.written, h.grown, h.attended⟩
  | @commit batch accepting =>
      have reaching : Reaching H schema known root [] session.scheduler :=
        ⟨h.within.missing, h.within.bodies⟩
      refine ⟨h.holds.commit,
        ⟨h.within.missing, reaching.commit.bodies, by simp, h.within.asked, ?_⟩, ?_, ?_,
        h.grown.putAll (h.puts batch), h.attended_commit functional batch⟩
      · intro code bytes staged
        simp [Staging.empty] at staged
      · exact fun put member => h.batches put (Batch.mem_of_emptied member).2
      · intro put member
        rcases List.mem_append.mp member with member | member
        · exact h.written put member
        · exact h.within.puts member
  | rejectWrites =>
      have grown := h.grown
      exact ⟨h.holds, h.within, h.batches, h.written, ⟨grown.keying_eq, grown.nodes_kept,
        grown.codes_kept, grown.nodes, grown.codes⟩, h.attended⟩

/-- Nodes get into the store, and into batches that are still to be written, only as they are
staged. -/
structure Accounted (start : Store) (session : Session) : Prop where
  keying_eq : session.store.keying = start.keying
  stored : ∀ {occurrence}, session.store.hasNode occurrence = true →
    start.hasNode occurrence = true ∨
      ∃ other ∈ session.putNodes, start.key other = start.key occurrence
  batched : ∀ {number occurrence bytes}, .node occurrence bytes ∈ (session.batches number).puts →
    occurrence ∈ session.putNodes ∨
      session.scheduler.staging.digestAt? occurrence.path = some occurrence.digest

theorem Step.accounted {past : List Occurrence} (step : Step H session action next)
    (coherent : Coherent [] session.scheduler) (addressed : Addressed H [] session.scheduler past)
    (no_trie : ∀ occurrence, action ≠ .call (.addSubTrie occurrence))
    (h : Accounted start session) : Accounted start next := by
  cases step with
  | refuse | commitNothing => exact h
  | @perform call tasks begun after turn begun_coherent works =>
      obtain ⟨opened, begun_addressed⟩ := addressed.turn coherent
        (fun occurrence same => no_trie occurrence (congrArg Action.call same)) turn
      refine ⟨h.keying_eq, h.stored, fun member => (h.batched member).imp_right ?_⟩
      intro staged
      refine begun_addressed.digestAt?_works begun_coherent works ?_
      rwa [Staging.digestAt?, turn.nodes_eq]
  | @commitRefused batch rejecting =>
      refine ⟨h.keying_eq, h.stored, ?_⟩
      intro number occurrence bytes member
      rcases Batch.mem_filled_cases member with batched | ⟨-, staged⟩
      · exact h.batched batched
      · exact .inr (Staging.digestAt?_of_mem_puts staged)
  | @commit batch accepting =>
      have put_of_staged {occurrence : Occurrence}
          (staged : session.scheduler.staging.digestAt? occurrence.path = some occurrence.digest) :
          occurrence ∈ session.scheduler.staging.puts.filterMap Put.occurrence? := by
        obtain ⟨bytes, found⟩ := Staging.digestAt?_eq_some_iff.mp staged
        exact Put.mem_occurrences_iff.mpr ⟨bytes, Staging.node_mem_puts found⟩
      refine ⟨(Store.keying_putAll _ _).trans h.keying_eq, ?_, ?_⟩
      · intro occurrence held
        simp only [putNodes, List.filterMap_append, List.mem_append]
        rcases (Store.hasNode_putAll _ _ _).mp held with held | ⟨other, bytes, put, key_eq⟩
        · refine (h.stored held).imp_right ?_
          rintro ⟨other, member, key_eq⟩
          exact ⟨other, .inl member, key_eq⟩
        · rw [Store.key_eq_of_keying_eq h.keying_eq, Store.key_eq_of_keying_eq h.keying_eq] at key_eq
          refine .inr ⟨other, ?_, key_eq⟩
          rcases List.mem_append.mp put with batched | staged
          · exact (h.batched batched).imp_right put_of_staged
          · exact .inr (put_of_staged (Staging.digestAt?_of_mem_puts staged))
      · intro number occurrence bytes member
        simp only [putNodes, List.filterMap_append, List.mem_append]
        exact .inl ((h.batched (Batch.mem_of_emptied member).2).imp_right put_of_staged)
  | rejectWrites => exact ⟨h.keying_eq, h.stored, h.batched⟩

end Session

end TrieSync
