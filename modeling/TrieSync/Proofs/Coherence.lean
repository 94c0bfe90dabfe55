import TrieSync.Hash.Quick
import TrieSync.Proofs.Session

namespace TrieSync

/-- Between calls, every request counts the references to it, and no index leads to a request that
is not live. -/
structure Scheduler.Consistent (scheduler : Scheduler) : Prop where
  pending_eq : ∀ {id request}, scheduler.requests.live? id = some request →
    request.pending = scheduler.waiters.count id
  waiters_live : ∀ id ∈ scheduler.waiters, ∃ request, scheduler.requests.live? id = some request
  byDigest_live : ∀ digest, ∀ id ∈ scheduler.requests.byDigest.getD digest [],
    ∃ request, scheduler.requests.live? id = some request ∧ request.occurrence.digest = digest
  byPath_live : ∀ {path : Path} {id}, scheduler.requests.byPath[path]? = some id →
    ∃ request, scheduler.requests.live? id = some request ∧ path ∈ request.paths
  queue_live : ∀ {path : Path} {id}, scheduler.requests.queue[path]? = some id →
    ∃ request, scheduler.requests.live? id = some request ∧ request.occurrence.path = path
  inFlight_live : ∀ id ∈ scheduler.requests.inFlight,
    ∃ request, scheduler.requests.live? id = some request

open Scheduler

theorem Scheduler.Coherent.consistent {scheduler : Scheduler} (h : Coherent [] scheduler) :
    scheduler.Consistent where
  pending_eq := h.counted.pending_eq
  waiters_live _ := h.counted.live_of_mem
  byDigest_live digest id := (h.counted.wellFormed.mem_byDigest_iff digest id).mp
  byPath_live := h.counted.wellFormed.byPath_live
  queue_live found := by
    obtain ⟨request, live, path_eq, -⟩ := h.counted.wellFormed.queue_live found
    exact ⟨request, live, path_eq⟩
  inFlight_live id member := by
    obtain ⟨request, live, -⟩ := h.counted.wellFormed.inFlight_live member
    exact ⟨request, live⟩

/-- The bytes that are given for a node. -/
def Call.delivered? : Call → Option Bytes
  | .processNode _ bytes => some bytes
  | _ => none

def Action.delivered? : Action → Option Bytes
  | .call asked => asked.delivered?
  | _ => none

def Operation.delivered? : Operation → Option Bytes
  | .act _ action => action.delivered?
  | _ => none

/-- The digest is that of bytes which are given for some node. -/
def Delivered (H : Hash) (operations : List Operation) (digest : Digest) (bytes : Bytes) : Prop :=
  bytes ∈ operations.filterMap Operation.delivered? ∧ H bytes = digest

namespace System

variable {H : Hash} {schema : Schema} {known : Digest → Bytes → Prop} {system next : System}

/-- Every scheduler is coherent, and knows of nodes only what is known. -/
private def Sane (schema : Schema) (known : Digest → Bytes → Prop) (system : System) : Prop :=
  ∀ {number scheduler}, system.schedulers number = some scheduler →
    Coherent [] scheduler ∧ Holds schema known [] scheduler

private theorem Sane.update {number : Nat} {scheduler : Scheduler}
    (h : Sane schema known system) (coherent : Coherent [] scheduler)
    (holds : Holds schema known [] scheduler) (store : Store) (batches : Nat → Batch) :
    Sane schema known
      ⟨store, Function.update system.schedulers number (some scheduler), batches⟩ := by
  intro other current found
  rcases System.update_cases found with ⟨rfl, rfl⟩ | found
  · exact ⟨coherent, holds⟩
  · exact h found

private theorem Holds.session {session after : Session} {action : Action}
    (holds : Holds schema known [] session.scheduler)
    (delivered : ∀ bytes ∈ action.delivered?, known (H bytes) bytes)
    (step : Session.Step H session action after) : Holds schema known [] after.scheduler := by
  cases step with
  | refuse | commitNothing | commitRefused | rejectWrites => exact holds
  | perform turn start_coherent works =>
      refine (holds.turn turn ?_).works start_coherent works
      rintro path bytes rfl
      exact delivered bytes (Option.mem_def.mpr rfl)
  | commit => exact holds.commit

private theorem exists_step {session : Session} {action : Action}
    (acyclic : Acyclic H schema known) (coherent : Coherent [] session.scheduler)
    (holds : Holds schema known [] session.scheduler)
    (delivered : ∀ bytes ∈ action.delivered?, known (H bytes) bytes) :
    ∃ after, session.step H action = .ok after := by
  cases action with
  | commit | rejectWrites => exact ⟨_, rfl⟩
  | call call =>
      have delivered_call {path : Path} {bytes : Bytes} (given : call = .processNode path bytes) :
          known (H bytes) bytes := by
        subst given
        exact delivered bytes (Option.mem_def.mpr rfl)
      exact Session.exists_perform
        (perform_ne_fault session.store acyclic coherent holds delivered_call)

private theorem Sane.step (acyclic : Acyclic H schema known) {operation : Operation}
    (delivered : ∀ bytes ∈ operation.delivered?, known (H bytes) bytes)
    (h : Sane schema known system) :
    ∃ next, system.step H schema operation = .ok next ∧ Sane schema known next := by
  cases operation with
  | start number root =>
      obtain ⟨scheduler, started⟩ := exists_ofRoot H system.store schema root
      have works := works_of_ofRoot started
      have coherent := coherent_node (coherent_idle schema) ⟨.root, root⟩
      have turn : Turn H (Scheduler.idle schema) (.addSubTrie ⟨.root, root⟩)
          [.node none ⟨.root, root⟩] (Scheduler.idle schema) := .addSubTrie
      have holds := (holds_idle schema known).turn turn (by simp)
      refine ⟨_, by simp only [System.step, started]; rfl, ?_⟩
      exact h.update (works.coherent coherent) (holds.works coherent works) _ _
  | act number action =>
      cases found : system.schedulers number with
      | none => exact ⟨system, by simp only [System.step, found], h⟩
      | some scheduler =>
          obtain ⟨coherent, holds⟩ := h found
          obtain ⟨after, stepped⟩ : ∃ after, Session.step
              ⟨scheduler, system.store, system.batches, []⟩ H action = .ok after :=
            exists_step acyclic coherent holds delivered
          have step := Session.step_of_eq_ok coherent stepped
          refine ⟨_, by simp only [System.step, found, stepped]; rfl, ?_⟩
          exact h.update (step.coherent coherent) (Holds.session holds delivered step) _ _
  | replaceStore store => exact ⟨_, rfl, h⟩

private theorem Sane.run (acyclic : Acyclic H schema known) {operations : List Operation}
    (delivered : ∀ operation ∈ operations, ∀ bytes ∈ operation.delivered?, known (H bytes) bytes)
    (h : Sane schema known system) :
    ∃ next, system.run H schema operations = .ok next ∧ Sane schema known next := by
  induction operations generalizing system with
  | nil => exact ⟨system, rfl, h⟩
  | cons operation operations ih =>
      obtain ⟨between, stepped, sane⟩ := h.step acyclic (delivered operation List.mem_cons_self)
      obtain ⟨next, ran, next_sane⟩ :=
        ih (fun other member => delivered other (List.mem_cons_of_mem _ member)) sane
      refine ⟨next, ?_, next_sane⟩
      rw [System.run, List.foldlM_cons, stepped]
      exact ran

/-- Every call returns, and leaves the schedulers consistent. -/
theorem run_consistent (H : Hash) (schema : Schema) (store : Store) (operations : List Operation)
    (acyclic : Acyclic H schema (Delivered H operations)) :
    ∃ system, (idle store).run H schema operations = .ok system ∧
      ∀ {number scheduler}, system.schedulers number = some scheduler → scheduler.Consistent := by
  have begins : Sane schema (Delivered H operations) (idle store) := by simp [Sane, idle]
  obtain ⟨system, ran, sane⟩ := begins.run acyclic fun operation member bytes given =>
    ⟨List.mem_filterMap.mpr ⟨operation, member, given⟩, rfl⟩
  exact ⟨system, ran, fun found => (sane found).1.consistent⟩

/-! A trie is added at a place where the root, which is given later, has another node, so that two
requests are for one place, and two more for the place of a child. Two nodes wait for one leaf, and
one node for another leaf at two places. -/

namespace ContestedPlaces

def leaf (value : UInt8) : Bytes :=
  (Node.leaf [1, 2] [value]).encode

def added : Bytes :=
  (Node.fork (5, quickHash (leaf 1)) (7, quickHash (leaf 2))).encode

def inner : Bytes :=
  (Node.fork (5, quickHash (leaf 3)) (6, quickHash (leaf 3))).encode

def top : Bytes :=
  (Node.fork (1, quickHash inner) (2, quickHash (leaf 2))).encode

def answer (nibbles : Nibbles) (bytes : Bytes) : Operation :=
  .act 0 (.call (.processNode ⟨.root, nibbles⟩ bytes))

/-- What is given for the leaf at `15` comes too late, as the place is now that of another leaf.
What is given for the leaf at `17` comes twice, and a write is refused. -/
def operations : List Operation :=
  [.start 0 (quickHash top), .act 0 (.call (.addSubTrie ⟨⟨.root, [1]⟩, quickHash added⟩)),
    .act 0 (.call (.missing 0)), answer [1] added, answer [] top, .act 0 (.call (.missing 0)),
    answer [1, 7] (leaf 2), answer [1, 7] (leaf 2), answer [1] inner, answer [1, 5] (leaf 1),
    .act 0 (.rejectWrites true), .act 0 (.commit 0)]

def rank (digest : Digest) : Nat :=
  if digest = quickHash top then 2
  else if digest = quickHash added ∨ digest = quickHash inner then 1
  else 0

private theorem acyclic_delivered :
    Acyclic quickHash .plain (Delivered quickHash operations) := by
  have ranked : ∀ bytes ∈ operations.filterMap Operation.delivered?,
      ∀ references ∈ (Schema.references .plain quickHash .root bytes).toOption,
      ∀ node ∈ references.nodes, rank node.digest < rank (quickHash bytes) := by
    decide +kernel
  apply Acyclic.of_rank rank
  rintro digest bytes references ⟨delivered, rfl⟩ decoded
  exact ranked bytes delivered references (by simp [decoded, Except.toOption])

/-- The places of a request, how many references it waits for, and who waits for it. -/
def standing (request : Request) : List Nibbles × Nat × List RequestId :=
  (request.paths.map Path.nibbles, request.pending, request.waiters)

theorem run_consistent_overlapping :
    Acyclic quickHash .plain (Delivered quickHash operations) ∧
      ∃ system scheduler, (idle (.empty .byPath)).run quickHash .plain operations = .ok system ∧
        system.schedulers 0 = some scheduler ∧ scheduler.Consistent ∧
        scheduler.requests.requests.map standing =
          [([[]], 1, []), ([[1]], 1, []), ([[1, 5]], 0, [1]), ([[1, 5], [1, 6]], 0, [4, 4]),
            ([[1]], 2, [0])] := by
  have standing_eq : ((idle (.empty .byPath)).run quickHash .plain operations).map
      (fun system => (system.schedulers 0).any fun scheduler =>
        scheduler.requests.requests.map standing =
          [([[]], 1, []), ([[1]], 1, []), ([[1, 5]], 0, [1]), ([[1, 5], [1, 6]], 0, [4, 4]),
            ([[1]], 2, [0])]) = .ok true := by
    decide +kernel
  obtain ⟨system, ran, consistent⟩ :=
    run_consistent quickHash .plain (.empty .byPath) operations acyclic_delivered
  rw [ran] at standing_eq
  obtain ⟨scheduler, found, requests_eq⟩ := (Option.any_eq_true _ _).mp (Except.ok.inj standing_eq)
  exact ⟨acyclic_delivered, system, scheduler, ran, found, consistent found,
    of_decide_eq_true requests_eq⟩

end ContestedPlaces

end System

end TrieSync
