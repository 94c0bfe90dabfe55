import Mathlib.Logic.Function.Basic
import TrieSync.Proofs.Alike

/-!
Stores in memory with the batches that write to them. A store that is keyed by digest and one that
is keyed by path, on which the same operations are made, hold the same digests: what is known of one
of them carries over to the other.
-/

namespace TrieSync

/-- A store with any number of batches that write to it. -/
structure Storage where
  store : Store
  batches : Nat → Batch

namespace Storage

inductive Operation
  | put (batch : Nat) (put : Put)
  | write (batch : Nat)
  | rejectWrites (rejecting : Bool)
  /-- A node is put into the store itself, whether or not writes are refused. -/
  | insertNode (occurrence : Occurrence) (bytes : Bytes)
  | removeNode (digest : Digest)

inductive Answer
  | done
  | written (result : Except WriteError Unit)
  | removed (bytes : Option Bytes)

def start (keying : Keying) : Storage where
  store := .empty keying
  batches := fun _ => .empty

/-- A batch that was written is empty, and one that was refused is kept. -/
def write (storage : Storage) (batch : Nat) : Except WriteError Unit × Storage :=
  match storage.store.write (storage.batches batch) with
  | .error error => (.error error, storage)
  | .ok store => (.ok (), { store, batches := Function.update storage.batches batch .empty })

def step (storage : Storage) : Operation → Answer × Storage
  | .put batch put =>
      (.done, { storage with
        batches := Function.update storage.batches batch ((storage.batches batch).append [put]) })
  | .write batch =>
      let (result, next) := storage.write batch
      (.written result, next)
  | .rejectWrites rejecting =>
      (.done, { storage with store := { storage.store with rejecting } })
  | .insertNode occurrence bytes =>
      (.done, { storage with store := storage.store.insertNode occurrence bytes })
  | .removeNode digest =>
      let (removed, store) := storage.store.removeNode digest
      (.removed removed, { storage with store })

def after (storage : Storage) (operations : List Operation) : Storage :=
  operations.foldl (fun storage operation => (storage.step operation).2) storage

/-- The bytes are put under a digest, be it into a batch or into the store itself. -/
inductive Operation.Supplies (digest : Digest) (bytes : Bytes) : Operation → Prop
  | put {batch path} : Supplies digest bytes (.put batch (.node ⟨path, digest⟩ bytes))
  | insertNode {path} : Supplies digest bytes (.insertNode ⟨path, digest⟩ bytes)

/-- The operation adds to a batch or writes it. -/
inductive Operation.Concerns (batch : Nat) : Operation → Prop
  | put {put} : Concerns batch (.put batch put)
  | write : Concerns batch (.write batch)

end Storage

namespace Store

variable {store : Store} {digest : Digest} {bytes : Bytes} {occurrence : Occurrence}

@[simp] theorem digest_key (store : Store) (occurrence : Occurrence) :
    (store.key occurrence).digest = occurrence.digest := by
  unfold key
  split <;> rfl

@[simp] theorem key_key (store : Store) (occurrence : Occurrence) :
    store.key (store.key occurrence) = store.key occurrence := by
  unfold key
  split <;> rfl

theorem mem_copies {copy : Occurrence × Bytes} :
    copy ∈ store.copies digest ↔ store.nodes[copy.1]? = some copy.2 ∧ copy.1.digest = digest := by
  rw [copies, List.mem_filter, Std.TreeMap.mem_toList_iff_getElem?_eq_some]
  simp

theorem getElem?_nodes_removeNode (store : Store) (digest : Digest) (occurrence : Occurrence) :
    (store.removeNode digest).2.nodes[occurrence]? =
      if occurrence.digest = digest then none else store.nodes[occurrence]? := by
  show ((store.copies digest).foldl (fun nodes copy => nodes.erase copy.1) store.nodes)[occurrence]?
    = _
  rw [Entries.getElem?_foldl_erase]
  have mem_iff : occurrence ∈ (store.copies digest).map Prod.fst ↔
      occurrence.digest = digest ∧ ∃ bytes, store.nodes[occurrence]? = some bytes := by
    constructor
    · intro member
      obtain ⟨copy, copy_mem, rfl⟩ := List.mem_map.mp member
      obtain ⟨held, digest_eq⟩ := mem_copies.mp copy_mem
      exact ⟨digest_eq, _, held⟩
    · rintro ⟨digest_eq, bytes, held⟩
      exact List.mem_map.mpr ⟨(occurrence, bytes), mem_copies.mpr ⟨held, digest_eq⟩, rfl⟩
  by_cases same : occurrence.digest = digest
  · rw [if_pos same]
    cases found : store.nodes[occurrence]? with
    | none => simp
    | some bytes => rw [if_pos (mem_iff.mpr ⟨same, bytes, found⟩)]
  · rw [if_neg same, if_neg fun member => same (mem_iff.mp member).1]

theorem node?_removeNode (store : Store) (digest : Digest) (occurrence : Occurrence) :
    (store.removeNode digest).2.node? occurrence =
      if occurrence.digest = digest then none else store.node? occurrence := by
  show (store.removeNode digest).2.nodes[store.key occurrence]? = _
  rw [getElem?_nodes_removeNode, digest_key]
  rfl

theorem removed_eq
    (uniform : ∀ {occurrence : Occurrence} {found : Bytes},
      store.nodes[occurrence]? = some found → occurrence.digest = digest → found = bytes)
    {held : Bool}
    (held_iff : held = true ↔ ∃ occurrence, occurrence.digest = digest ∧
      store.nodes.contains occurrence = true) :
    (store.removeNode digest).1 = if held then some bytes else none := by
  show (store.copies digest).head?.map Prod.snd = _
  cases copies_eq : store.copies digest with
  | nil =>
      have absent : held ≠ true := by
        intro present
        obtain ⟨occurrence, digest_eq, contained⟩ := held_iff.mp present
        obtain ⟨found, found_eq⟩ := Option.isSome_iff_exists.mp
          (Std.TreeMap.contains_eq_isSome_getElem?.symm.trans contained)
        have member : (occurrence, found) ∈ store.copies digest :=
          mem_copies.mpr ⟨found_eq, digest_eq⟩
        simp [copies_eq] at member
      rw [if_neg absent]
      rfl
  | cons first rest =>
      obtain ⟨found_eq, digest_eq⟩ := mem_copies.mp (copies_eq ▸ List.mem_cons_self)
      have present : held = true := by
        refine held_iff.mpr ⟨first.1, digest_eq, ?_⟩
        rw [Std.TreeMap.contains_eq_isSome_getElem?, found_eq]
        rfl
      rw [if_pos present, List.head?_cons, Option.map_some, uniform found_eq digest_eq]

theorem key_eq_iff_of_byDigest (keying : store.keying = .byDigest) {other : Occurrence} :
    store.key other = store.key occurrence ↔ other.digest = occurrence.digest := by
  simp [key, keying]

theorem key_of_byPath (keying : store.keying = .byPath) (occurrence : Occurrence) :
    store.key occurrence = occurrence := by
  simp [key, keying]

theorem hasNode_insertNode (store : Store) (other : Occurrence) (bytes : Bytes)
    (occurrence : Occurrence) :
    (store.insertNode other bytes).hasNode occurrence = true ↔
      store.hasNode occurrence = true ∨ store.key other = store.key occurrence := by
  rw [hasNode_eq_isSome_node?, node?_insertNode, hasNode_eq_isSome_node?]
  split
  · rename_i same
    simp [same]
  · rename_i different
    simp [different]

theorem hasNode_removeNode (store : Store) (digest : Digest) (occurrence : Occurrence) :
    (store.removeNode digest).2.hasNode occurrence = true ↔
      store.hasNode occurrence = true ∧ occurrence.digest ≠ digest := by
  rw [hasNode_eq_isSome_node?, hasNode_eq_isSome_node?, node?_removeNode]
  by_cases same : occurrence.digest = digest
  · simp [same]
  · simp [same]

end Store

namespace Storage

variable {storage next byDigest byPath : Storage} {operation : Operation}
  {operations : List Operation} {digest : Digest} {bytes : Bytes} {batch : Nat}

theorem write_of_rejecting (rejecting : storage.store.rejecting = true) (batch : Nat) :
    storage.write batch = (.error .rejected, storage) := by
  simp [write, Store.write, rejecting]

theorem write_of_accepting (accepting : storage.store.rejecting = false) (batch : Nat) :
    storage.write batch =
      (.ok (), { store := storage.store.putAll (storage.batches batch).puts
                 batches := Function.update storage.batches batch .empty }) := by
  simp [write, Store.write, accepting, Store.putAll]

theorem after_keeps {P : Storage → Prop}
    (kept : ∀ {storage operation}, operation ∈ operations → P storage →
      P (storage.step operation).2)
    (holds : P storage) : P (storage.after operations) := by
  induction operations generalizing storage with
  | nil => exact holds
  | cons first rest ih =>
      exact ih (fun member => kept (List.mem_cons_of_mem _ member))
        (kept List.mem_cons_self holds)

/-- Every node is held under the key that it is looked for at. -/
def Keyed (storage : Storage) : Prop :=
  ∀ occurrence bytes, storage.store.nodes[occurrence]? = some bytes →
    storage.store.key occurrence = occurrence

/-- All that is held under a digest, or will be once it is written, are the same bytes. -/
structure Uniform (digest : Digest) (bytes : Bytes) (storage : Storage) : Prop where
  held : ∀ {occurrence : Occurrence} {found : Bytes},
    storage.store.nodes[occurrence]? = some found → occurrence.digest = digest → found = bytes
  batched : ∀ {batch occurrence found}, .node occurrence found ∈ (storage.batches batch).puts →
    occurrence.digest = digest → found = bytes

/-- A store that is keyed by digest holds the digests that another one, keyed by path, holds at some
place, and all else is the same for both. -/
structure Simulates (byDigest byPath : Storage) : Prop where
  digest_keying : byDigest.store.keying = .byDigest
  path_keying : byPath.store.keying = .byPath
  rejecting_eq : byDigest.store.rejecting = byPath.store.rejecting
  codes_eq : byDigest.store.codes = byPath.store.codes
  batches_eq : byDigest.batches = byPath.batches
  hasNode_iff : ∀ occurrence, byDigest.store.hasNode occurrence = true ↔
    ∃ path, byPath.store.hasNode ⟨path, occurrence.digest⟩ = true

theorem held_of_step {occurrence : Occurrence}
    (held : (storage.step operation).2.store.nodes[occurrence]? = some bytes) :
    storage.store.nodes[occurrence]? = some bytes ∨
      ∃ other, storage.store.key other = occurrence ∧
        (operation = .insertNode other bytes ∨
          ∃ batch, .node other bytes ∈ (storage.batches batch).puts) := by
  cases operation with
  | put | rejectWrites => exact .inl held
  | write batch =>
      rw [step] at held
      cases rejecting : storage.store.rejecting with
      | true =>
          rw [write_of_rejecting rejecting] at held
          exact .inl held
      | false =>
          rw [write_of_accepting rejecting] at held
          refine (Store.getElem?_nodes_putAll held).imp_right ?_
          rintro ⟨other, member, key_eq⟩
          exact ⟨other, key_eq, .inr ⟨batch, member⟩⟩
  | insertNode other inserted =>
      simp only [step, Store.insertNode, Entries.getElem?_insert] at held
      split at held
      · rename_i key_eq
        obtain rfl := Option.some.inj held
        exact .inr ⟨other, key_eq, .inl rfl⟩
      · exact .inl held
  | removeNode digest =>
      have left := Store.getElem?_nodes_removeNode storage.store digest occurrence
      rw [show (storage.store.removeNode digest).2.nodes[occurrence]? = some bytes from held] at left
      split at left
      · simp at left
      · exact .inl left.symm

theorem batched_of_step {put : Put}
    (batched : put ∈ ((storage.step operation).2.batches batch).puts) :
    put ∈ (storage.batches batch).puts ∨ operation = .put batch put := by
  cases operation with
  | rejectWrites | insertNode | removeNode => exact .inl batched
  | put other added =>
      simp only [step, Function.update_apply] at batched
      split at batched
      · rename_i same
        subst same
        rcases List.mem_append.mp batched with before | last
        · exact .inl before
        · exact .inr (by rw [List.mem_singleton.mp last])
      · exact .inl batched
  | write other =>
      rw [step] at batched
      cases rejecting : storage.store.rejecting with
      | true =>
          rw [write_of_rejecting rejecting] at batched
          exact .inl batched
      | false =>
          rw [write_of_accepting rejecting] at batched
          simp only [Function.update_apply] at batched
          split at batched
          · simp [Batch.empty] at batched
          · exact .inl batched

@[simp] theorem keying_step (storage : Storage) (operation : Operation) :
    (storage.step operation).2.store.keying = storage.store.keying := by
  cases operation with
  | put | rejectWrites | insertNode | removeNode => rfl
  | write batch =>
      rw [step]
      cases rejecting : storage.store.rejecting with
      | true => rw [write_of_rejecting rejecting]
      | false =>
          rw [write_of_accepting rejecting]
          exact Store.keying_putAll _ _

theorem Keyed.step (h : storage.Keyed) (operation : Operation) :
    (storage.step operation).2.Keyed := by
  intro occurrence bytes held
  rw [Store.key_eq_of_keying_eq (keying_step storage operation)]
  rcases held_of_step held with before | ⟨other, rfl, -⟩
  · exact h _ _ before
  · exact Store.key_key _ _

theorem Uniform.step (h : storage.Uniform digest bytes)
    (supplied : ∀ {found}, operation.Supplies digest found → found = bytes) :
    (storage.step operation).2.Uniform digest bytes where
  held := by
    intro occurrence found held digest_eq
    rcases held_of_step held with before | ⟨⟨path, own⟩, rfl, put | ⟨batch, batched⟩⟩
    · exact h.held before digest_eq
    · obtain rfl : own = digest := by simpa using digest_eq
      exact supplied (put ▸ .insertNode)
    · exact h.batched batched (by simpa using digest_eq)
  batched := by
    rintro batch ⟨path, own⟩ found batched rfl
    rcases batched_of_step batched with before | put
    · exact h.batched before rfl
    · exact supplied (put ▸ .put)

theorem Uniform.node?_eq (h : storage.Uniform digest bytes) (path : Path) :
    storage.store.node? ⟨path, digest⟩ =
      if storage.store.hasNode ⟨path, digest⟩ then some bytes else none := by
  rw [Store.hasNode_eq_isSome_node?]
  cases found : storage.store.node? ⟨path, digest⟩ with
  | none => rfl
  | some held =>
      obtain rfl : held = bytes := h.held found (Store.digest_key _ _)
      rfl

private theorem codes_putAll_congr {left right : Store} (codes_eq : left.codes = right.codes)
    (puts : List Put) : (left.putAll puts).codes = (right.putAll puts).codes := by
  unfold Store.putAll
  induction puts generalizing left right with
  | nil => exact codes_eq
  | cons first rest ih =>
      apply ih
      cases first with
      | node => exact codes_eq
      | code digest bytes =>
          exact congrArg (fun codes => codes.insert digest bytes) codes_eq

namespace Simulates

private theorem putsNode_iff (h : Simulates byDigest byPath) (puts : List Put)
    (occurrence : Occurrence) :
    Put.PutsNode byDigest.store puts occurrence ↔
      ∃ path, Put.PutsNode byPath.store puts ⟨path, occurrence.digest⟩ := by
  simp only [Put.PutsNode, Store.key_eq_iff_of_byDigest h.digest_keying,
    Store.key_of_byPath h.path_keying]
  constructor
  · rintro ⟨⟨path, own⟩, bytes, member, rfl⟩
    exact ⟨path, _, bytes, member, rfl⟩
  · rintro ⟨path, other, bytes, member, rfl⟩
    exact ⟨_, bytes, member, rfl⟩

theorem step (h : Simulates byDigest byPath) (operation : Operation) :
    Simulates (byDigest.step operation).2 (byPath.step operation).2 := by
  cases operation with
  | put batch put =>
      exact { h with batches_eq := by simp only [Storage.step, h.batches_eq] }
  | rejectWrites rejecting => exact { h with rejecting_eq := rfl }
  | write batch =>
      rw [Storage.step, Storage.step]
      cases rejecting : byPath.store.rejecting with
      | true =>
          rw [write_of_rejecting rejecting, write_of_rejecting (h.rejecting_eq.trans rejecting)]
          exact h
      | false =>
          rw [write_of_accepting rejecting, write_of_accepting (h.rejecting_eq.trans rejecting),
            h.batches_eq]
          exact {
            digest_keying := by simpa using h.digest_keying
            path_keying := by simpa using h.path_keying
            rejecting_eq := by simpa using h.rejecting_eq
            codes_eq := codes_putAll_congr h.codes_eq _
            batches_eq := rfl
            hasNode_iff := by
              intro occurrence
              simp only [Store.hasNode_putAll, h.hasNode_iff, h.putsNode_iff, exists_or] }
  | insertNode inserted bytes =>
      refine { h with hasNode_iff := ?_ }
      intro occurrence
      simp only [Storage.step, Store.hasNode_insertNode, h.hasNode_iff,
        Store.key_eq_iff_of_byDigest h.digest_keying, Store.key_of_byPath h.path_keying, exists_or]
      refine or_congr_right ⟨?_, ?_⟩
      · rintro same
        exact ⟨inserted.path, same ▸ rfl⟩
      · rintro ⟨path, rfl⟩
        rfl
  | removeNode digest =>
      refine { h with hasNode_iff := ?_ }
      intro occurrence
      simp only [Storage.step, Store.hasNode_removeNode, h.hasNode_iff, exists_and_right]

theorem written_eq (h : Simulates byDigest byPath) (batch : Nat) :
    (byDigest.write batch).1 = (byPath.write batch).1 := by
  cases rejecting : byPath.store.rejecting with
  | true => rw [write_of_rejecting rejecting, write_of_rejecting (h.rejecting_eq.trans rejecting)]
  | false => rw [write_of_accepting rejecting, write_of_accepting (h.rejecting_eq.trans rejecting)]

theorem present_iff (h : Simulates byDigest byPath) (keyed : byDigest.Keyed) (path : Path)
    (digest : Digest) :
    (byDigest.store.hasNode ⟨path, digest⟩ = true ↔
      ∃ occurrence, occurrence.digest = digest ∧ byDigest.store.nodes.contains occurrence = true) ∧
    (byDigest.store.hasNode ⟨path, digest⟩ = true ↔
      ∃ occurrence, occurrence.digest = digest ∧ byPath.store.nodes.contains occurrence = true) := by
  constructor
  · constructor
    · intro held
      exact ⟨byDigest.store.key ⟨path, digest⟩, Store.digest_key _ _, held⟩
    · rintro ⟨occurrence, digest_eq, contained⟩
      obtain ⟨found, found_eq⟩ := Option.isSome_iff_exists.mp
        (Std.TreeMap.contains_eq_isSome_getElem?.symm.trans contained)
      have key_eq : byDigest.store.key ⟨path, digest⟩ = occurrence := by
        rw [← keyed _ _ found_eq]
        exact (Store.key_eq_iff_of_byDigest h.digest_keying).mpr digest_eq.symm
      rwa [Store.hasNode, key_eq]
  · rw [h.hasNode_iff]
    constructor
    · rintro ⟨other, held⟩
      rw [Store.hasNode, Store.key_of_byPath h.path_keying] at held
      exact ⟨⟨other, digest⟩, rfl, held⟩
    · rintro ⟨occurrence, digest_eq, contained⟩
      refine ⟨occurrence.path, ?_⟩
      rw [Store.hasNode, Store.key_of_byPath h.path_keying]
      exact digest_eq ▸ contained

theorem after (h : Simulates byDigest byPath) (operations : List Operation) :
    Simulates (byDigest.after operations) (byPath.after operations) := by
  induction operations generalizing byDigest byPath with
  | nil => exact h
  | cons first rest ih => exact ih (h.step first)

end Simulates

theorem simulates_start : Simulates (start .byDigest) (start .byPath) where
  digest_keying := rfl
  path_keying := rfl
  rejecting_eq := rfl
  codes_eq := rfl
  batches_eq := rfl
  hasNode_iff occurrence := by simp [start]

theorem keyed_start (keying : Keying) : (start keying).Keyed := by
  intro occurrence bytes held
  simp [start, Store.empty] at held

theorem uniform_start (keying : Keying) (digest : Digest) (bytes : Bytes) :
    (start keying).Uniform digest bytes where
  held held := by simp [start, Store.empty] at held
  batched batched := by simp [start, Batch.empty] at batched

theorem batches_after (storage : Storage)
    (others : ∀ operation ∈ operations, ¬ operation.Concerns batch) :
    (storage.after operations).batches batch = storage.batches batch := by
  refine after_keeps (P := fun later => later.batches batch = storage.batches batch) ?_ rfl
  intro later operation member kept
  cases operation with
  | rejectWrites | insertNode | removeNode => exact kept
  | put other put =>
      have ne : batch ≠ other := by
        rintro rfl
        exact others _ member .put
      simpa [step, Function.update_of_ne ne] using kept
  | write other =>
      have ne : batch ≠ other := by
        rintro rfl
        exact others _ member .write
      rw [step]
      cases rejecting : later.store.rejecting with
      | true =>
          rw [write_of_rejecting rejecting]
          exact kept
      | false =>
          rw [write_of_accepting rejecting]
          simpa [Function.update_of_ne ne] using kept

/-- A write that is refused leaves all as it is, and may be made again at any later time: unless
others have added to the batch, then all of it is written at that time. -/
theorem write_again {error : WriteError} (refused : (storage.write batch).1 = .error error)
    (between : List Operation) :
    (storage.write batch).2 = storage ∧
      storage.after (.write batch :: between) = storage.after between ∧
      ((∀ operation ∈ between, ¬ operation.Concerns batch) →
        (storage.after between).store.rejecting = false →
        (storage.after (.write batch :: between)).write batch =
          (.ok (), { store := (storage.after between).store.putAll (storage.batches batch).puts
                     batches := Function.update (storage.after between).batches batch .empty })) := by
  have kept : (storage.write batch).2 = storage := by
    cases rejecting : storage.store.rejecting with
    | true => rw [write_of_rejecting rejecting]
    | false => simp [write_of_accepting rejecting] at refused
  have after_eq : storage.after (.write batch :: between) = storage.after between :=
    congrArg (fun storage => storage.after between) kept
  refine ⟨kept, after_eq, ?_⟩
  intro others accepting
  rw [after_eq, write_of_accepting accepting, batches_after storage others]

/-- Whatever is done to two stores of which one is keyed by digest and the other by path, they hold
the same digests, code and batches, and give the same answers. -/
theorem keyings_simulate (operations : List Operation) :
    let byDigest := (start .byDigest).after operations
    let byPath := (start .byPath).after operations
    (∀ path digest, byDigest.store.hasNode ⟨path, digest⟩ = true ↔
      ∃ other, byPath.store.hasNode ⟨other, digest⟩ = true) ∧
    (∀ digest bytes,
      (∀ operation ∈ operations, ∀ found, operation.Supplies digest found → found = bytes) →
      ∀ path, let present := if byDigest.store.hasNode ⟨path, digest⟩ then some bytes else none
        byDigest.store.node? ⟨path, digest⟩ = present ∧
        (byDigest.step (.removeNode digest)).1 = .removed present ∧
        (byPath.step (.removeNode digest)).1 = .removed present) ∧
    (∀ storage ∈ [byDigest, byPath], ∀ digest occurrence,
      (storage.step (.removeNode digest)).2.store.node? occurrence =
        if occurrence.digest = digest then none else storage.store.node? occurrence) ∧
    byDigest.store.codes = byPath.store.codes ∧
    byDigest.batches = byPath.batches ∧
    (∀ batch, (byDigest.step (.write batch)).1 = (byPath.step (.write batch)).1) ∧
    ∀ storage ∈ [byDigest, byPath], ∀ batch error,
      (storage.step (.write batch)).1 = .written (.error error) →
      (storage.step (.write batch)).2 = storage ∧
      ∀ between, storage.after (.write batch :: between) = storage.after between ∧
        ((∀ operation ∈ between, ¬ operation.Concerns batch) →
          (storage.after between).store.rejecting = false →
          (storage.after (.write batch :: between)).step (.write batch) =
            (.written (.ok ()),
              { store := (storage.after between).store.putAll (storage.batches batch).puts
                batches := Function.update (storage.after between).batches batch .empty })) := by
  intro byDigest byPath
  have simulates : Simulates byDigest byPath := simulates_start.after operations
  refine ⟨fun path digest => simulates.hasNode_iff ⟨path, digest⟩, ?_,
    fun storage _ => Store.node?_removeNode storage.store, simulates.codes_eq, simulates.batches_eq,
    fun batch => congrArg Answer.written (simulates.written_eq batch), ?_⟩
  · intro digest bytes supplied path present
    have keyed : byDigest.Keyed := after_keeps (fun _ keyed => keyed.step _) (keyed_start _)
    have uniform : ∀ keying, ((start keying).after operations).Uniform digest bytes := fun keying =>
      after_keeps (fun member uniform => uniform.step (supplied _ member _)) (uniform_start _ _ _)
    obtain ⟨in_digests, in_paths⟩ := simulates.present_iff keyed path digest
    exact ⟨(uniform .byDigest).node?_eq path,
      congrArg Answer.removed (Store.removed_eq (uniform .byDigest).held in_digests),
      congrArg Answer.removed (Store.removed_eq (uniform .byPath).held in_paths)⟩
  · intro storage _ batch error refused
    have again := write_again (Answer.written.inj refused)
    refine ⟨(again []).1, fun between => ?_⟩
    obtain ⟨-, after_eq, later⟩ := again between
    refine ⟨after_eq, fun others accepting => ?_⟩
    rw [step, later others accepting]

end Storage

namespace Storage.TwoPlaces

def digest : Digest where
  bytes := List.replicate 32 0x11
  length_bytes := rfl

def other : Digest where
  bytes := List.replicate 32 0x22
  length_bytes := rfl

/-- A node is written at two places beside another one, and is to be written at a third when writes
are refused. -/
def operations : List Operation :=
  [.put 0 (.node ⟨⟨.root, [1]⟩, digest⟩ [7]), .put 0 (.node ⟨⟨.root, [2]⟩, digest⟩ [7]),
    .put 0 (.node ⟨⟨.root, [4]⟩, other⟩ [8]), .put 1 (.node ⟨⟨.root, [3]⟩, digest⟩ [7]), .write 0,
    .rejectWrites true]

theorem keyings_simulate_refused :
    let byDigest := (start .byDigest).after operations
    let byPath := (start .byPath).after operations
    (∀ operation ∈ operations, ∀ found, operation.Supplies digest found → found = [7]) ∧
      byDigest.store.hasNode ⟨⟨.root, []⟩, digest⟩ = true ∧
      (byDigest.step (.removeNode digest)).1 = .removed (some [7]) ∧
      (byPath.step (.removeNode digest)).1 = .removed (some [7]) ∧
      byPath.store.node? ⟨⟨.root, [2]⟩, digest⟩ = some [7] ∧
      (byPath.step (.removeNode digest)).2.store.node? ⟨⟨.root, [2]⟩, digest⟩ = none ∧
      (byPath.step (.removeNode digest)).2.store.node? ⟨⟨.root, [4]⟩, other⟩ = some [8] ∧
      (byPath.step (.write 1)).1 = .written (.error .rejected) ∧
      (∀ operation ∈ [Operation.rejectWrites false], ¬ operation.Concerns 1) ∧
      (byPath.after [.rejectWrites false]).store.rejecting = false ∧
      (byPath.after [.write 1, .rejectWrites false]).step (.write 1) =
        (.written (.ok ()),
          { store := (byPath.after [.rejectWrites false]).store.putAll (byPath.batches 1).puts
            batches := Function.update (byPath.after [.rejectWrites false]).batches 1 .empty }) := by
  intro byDigest byPath
  have supplied : ∀ operation ∈ operations, ∀ found,
      operation.Supplies digest found → found = [7] := by
    intro operation member found supplies
    cases supplies with
    | put =>
        simp only [operations, List.mem_cons, reduceCtorEq, List.not_mem_nil, or_false,
          Operation.put.injEq, Put.node.injEq, Occurrence.mk.injEq] at member
        rcases member with ⟨-, -, rfl⟩ | ⟨-, -, rfl⟩ | ⟨-, ⟨-, digest_eq⟩, -⟩ | ⟨-, -, rfl⟩
        · rfl
        · rfl
        · exact absurd digest_eq (by decide)
        · rfl
    | insertNode => simp [operations] at member
  have present : byDigest.store.hasNode ⟨⟨.root, []⟩, digest⟩ = true := by decide +kernel
  obtain ⟨copied, beside⟩ : byPath.store.node? ⟨⟨.root, [2]⟩, digest⟩ = some [7] ∧
      byPath.store.node? ⟨⟨.root, [4]⟩, other⟩ = some [8] := by decide +kernel
  have refused : (byPath.step (.write 1)).1 = .written (.error .rejected) := rfl
  have others : ∀ operation ∈ [Operation.rejectWrites false], ¬ operation.Concerns 1 := by
    intro operation member concerns
    cases concerns <;> simp at member
  obtain ⟨-, removed, left, -, -, -, refusals⟩ := keyings_simulate operations
  obtain ⟨-, digest_removed, path_removed⟩ := removed digest [7] supplied ⟨.root, []⟩
  rw [if_pos present] at digest_removed path_removed
  have left_byPath := left byPath (List.mem_cons_of_mem _ List.mem_cons_self) digest
  obtain ⟨-, later⟩ := refusals byPath (List.mem_cons_of_mem _ List.mem_cons_self) 1 _ refused
  refine ⟨supplied, present, digest_removed, path_removed, copied, ?_, ?_, refused, others, rfl,
    (later [.rejectWrites false]).2 others rfl⟩
  · rw [left_byPath, if_pos rfl]
  · rw [left_byPath, if_neg (by decide), beside]

end Storage.TwoPlaces

end TrieSync
