import TrieSync.Hash.Sha256
import TrieSync.Proofs.Inspection

namespace TrieSync

open Relation
open Scheduler

namespace Session

variable {H : Hash} {schema : Schema} {known : Digest → Bytes → Prop} {root : Digest}
  {wanted : Digest → Prop} {start : Store} {session : Session}

theorem Tracked.verify_eq_ok (h : Tracked H schema schema known root wanted (.empty .byPath) session)
    (functional : Functional known) (covering : Covering H (.empty .byPath) known)
    (coherent : Coherent [] session.scheduler) (isDone : session.scheduler.isDone = true) :
    session.store.verify H schema root = .ok session.store.nodes.size := by
  have keying_eq : session.store.keying = .byPath := h.progress.grown.keying_eq
  have backed {occurrence : Occurrence} (reachable : Reachable H schema known root occurrence) :=
    h.backed_of_reachable functional covering coherent isDone reachable
  have shallow : ¬ Descends (session.store.Reads H schema)
      (3 * session.store.nodes.size + 2) ⟨.root, root⟩ :=
    Store.not_descends_of_byPath keying_eq (by omega) _
  obtain ⟨visited, verified, nodup, mem_visited⟩ :=
    h.verify_visits covering (Store.hasCode_empty _) shallow fun reachable =>
      (backed reachable).imp fun _ facts => ⟨facts.1, facts.2.2⟩
  have perm : visited.Perm session.store.nodes.keys := by
    refine (List.perm_ext_iff_of_nodup nodup ?_).mpr ?_
    · rw [← Std.TreeMap.map_fst_toList_eq_keys]
      exact Entries.nodup_keys _
    · intro occurrence
      rw [mem_visited, Std.TreeMap.mem_keys, Std.TreeMap.mem_iff_isSome_getElem?,
        Option.isSome_iff_exists]
      constructor
      · rintro ⟨digest_ne, leads⟩
        obtain ⟨bytes, stored, -⟩ :=
          backed (h.reachable_of_reads covering ⟨digest_ne, .refl⟩ leads)
        simp only [Store.node?, Store.key, keying_eq] at stored
        exact ⟨bytes, stored⟩
      · rintro ⟨bytes, stored⟩
        rcases h.progress.grown.nodes stored with held | ⟨other, ⟨reachable, -⟩, rfl⟩
        · simp [Store.empty] at held
        · refine ⟨reachable.1, reads_of_reachable functional ?_ reachable⟩
          intro occurrence reachable _
          obtain ⟨bytes, stored, bytes_known, digest_eq, -⟩ := backed reachable
          exact ⟨bytes, stored, digest_eq, bytes_known⟩
  rw [← Std.TreeMap.length_keys, ← perm.length_eq]
  exact verified

theorem Completes.completed {actions others : List Action} {final : Session}
    (completes : Completes H schema start root actions final) (supports : start.Supports schema)
    (closed : start.Closed H schema) (collisionless : Collisionless H start others)
    (subset : actions ⊆ others)
    (noCode : ∀ digest path, .call (.addCode digest path) ∉ actions) :
    Coherent [] final.scheduler ∧
      Tracked H schema schema (Preimage H start others) root
        (ReachableCode H schema (Preimage H start others) root) start final ∧
      final.store.Completed H schema (Preimage H start others) root start := by
  obtain ⟨coherent, tracked, -⟩ :=
    completes.keeps (P := fun _ => True) supports closed (.inl rfl) collisionless.functional id
      (fun member => absurd member (noCode _ _)) (preimage_answered H start subset) (fun _ => trivial)
      (fun _ _ _ _ _ => trivial)
  exact ⟨coherent, tracked, tracked.completed collisionless.functional
    (covering_preimage H start others) closed coherent completes.isDone⟩

/-- Two schedulers for a root that start from equal stores and are done leave equal stores. These
hold what was held before and all that is reachable, and nothing else. If nothing was held before,
then every node is put at its place once, and the store passes a check. -/
theorem completes_content {first second : List Action} {final other : Session}
    (supports : start.Supports schema) (closed : start.Closed H schema)
    (collisionless : Collisionless H start (first ++ second))
    (completes : Completes H schema start root first final)
    (other_completes : Completes H schema start root second other)
    (noCode : ∀ digest path, .call (.addCode digest path) ∉ first ++ second) :
    final.store.Completed H schema (Preimage H start (first ++ second)) root start ∧
      final.store.nodes.toList = other.store.nodes.toList ∧
      final.store.codes.toList = other.store.codes.toList ∧
      (start = .empty .byPath →
        final.putNodes.Nodup ∧
        (∀ occurrence, occurrence ∈ final.putNodes ↔
          Reachable H schema (Preimage H start (first ++ second)) root occurrence) ∧
        final.store.verify H schema root = .ok final.store.nodes.size) := by
  obtain ⟨coherent, tracked, completed⟩ :=
    completes.completed supports closed collisionless (List.subset_append_left _ _)
      fun digest path member => noCode digest path (List.mem_append_left _ member)
  obtain ⟨-, -, other_completed⟩ :=
    other_completes.completed supports closed collisionless (List.subset_append_right _ _)
      fun digest path member => noCode digest path (List.mem_append_right _ member)
  refine ⟨completed, ?_, ?_, ?_⟩
  · refine Entries.toList_eq_of_getElem?_eq fun key bytes => ?_
    exact (completed.nodes key bytes).trans (other_completed.nodes key bytes).symm
  · refine Entries.toList_eq_of_getElem?_eq fun digest bytes => ?_
    exact (completed.codes digest bytes).trans (other_completed.codes digest bytes).symm
  · rintro rfl
    have functional := collisionless.functional
    have covering := covering_preimage H (.empty .byPath) (first ++ second)
    refine ⟨tracked.nodup_putNodes, fun occurrence => ⟨tracked.reachable_of_mem_putNodes, ?_⟩,
      tracked.verify_eq_ok functional covering coherent completes.isDone⟩
    exact tracked.mem_putNodes_of_reachable functional covering coherent completes.isDone rfl
      (Store.hasNode_empty _ _)

/-- A leaf is at two places. Once both are served by one answer; once an answer is wrong and a write
is refused before that. -/
theorem completes_content_shared :
    let leaf : Bytes := (Node.leaf [1, 2] [7]).encode
    let children := (Children.absent.set 1 (some (Hash.sha256 leaf))).set 2 (some (Hash.sha256 leaf))
    let branch : Bytes := (Node.branch children none).encode
    let first : List Action :=
      [.call (.missing 0), .call (.processNode .root branch), .call (.missing 0),
        .call (.processNode ⟨.root, [1]⟩ leaf), .commit 0]
    let second : List Action :=
      [.call (.missing 1), .call (.processNode .root leaf), .commit 0,
        .call (.processNode .root branch), .call (.missing 1),
        .call (.processNode ⟨.root, [1]⟩ leaf), .rejectWrites true, .commit 0,
        .rejectWrites false, .commit 1]
    ∃ final other, Completes Hash.sha256 .plain (.empty .byPath) (Hash.sha256 branch) first final ∧
      Completes Hash.sha256 .plain (.empty .byPath) (Hash.sha256 branch) second other ∧
      Collisionless Hash.sha256 (.empty .byPath) (first ++ second) ∧
      final.store.nodes.size = 3 ∧
      final.store.nodes.toList = other.store.nodes.toList ∧
      final.store.verify Hash.sha256 .plain (Hash.sha256 branch) = .ok final.store.nodes.size := by
  intro leaf children branch first second
  obtain ⟨distinct, first_ran, second_ran⟩ :
      (∀ left ∈ (first ++ second).filterMap Action.answer?,
        ∀ right ∈ (first ++ second).filterMap Action.answer?,
          Hash.sha256 left = Hash.sha256 right → left = right) ∧
      (runOfRoot Hash.sha256 .plain (.empty .byPath) (Hash.sha256 branch) first).map
        (fun session => (session.scheduler.isDone, session.store.nodes.size)) = .ok (true, 3) ∧
      (runOfRoot Hash.sha256 .plain (.empty .byPath) (Hash.sha256 branch) second).map
        (fun session => (session.scheduler.isDone, ())) = .ok (true, ()) := by
    decide +kernel
  have collisionless := collisionless_empty .byPath distinct
  obtain ⟨final, completes, size_eq⟩ := exists_completes (by simp [first]) first_ran
  obtain ⟨other, other_completes, -⟩ := exists_completes (by simp [second]) second_ran
  obtain ⟨-, nodes_eq, -, empty_facts⟩ :=
    completes_content (.inl rfl) (Store.closed_empty _ _ _) collisionless completes other_completes
      (by simp [first, second])
  exact ⟨final, other, completes, other_completes, collisionless, size_eq, nodes_eq,
    (empty_facts rfl).2.2⟩

end Session

end TrieSync
