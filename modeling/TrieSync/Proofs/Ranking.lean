import TrieSync.Proofs.Completion
import TrieSync.Proofs.Verification

/-!
Nodes are finished after those below them. So no node that was written is its own descendant, and a
check of the store ends.
-/

namespace TrieSync

open Relation

/-- The bytes that are known of a digest refer to another one, whatever the values in them are. -/
def Refers (H : Hash) (known : Digest → Bytes → Prop) (upper lower : Digest) : Prop :=
  ∃ bytes node, known upper bytes ∧ Node.decode bytes = .ok node ∧
    lower ∈ node.children.map Prod.snd ∧ lower ≠ emptyRoot H

theorem Backed.exists_of_refers {H : Hash} {schema : Schema} {known : Digest → Bytes → Prop}
    {hasNode : Occurrence → Prop} {hasCode : Digest → Prop} {occurrence : Occurrence}
    {bytes : Bytes} {lower : Digest} (h : Backed H schema hasNode hasCode occurrence bytes)
    (functional : Functional known) (bytes_known : known occurrence.digest bytes)
    (refers : Refers H known occurrence.digest lower) :
    ∃ references node, schema.references H occurrence.path bytes = .ok references ∧
      node ∈ references.nodes ∧ node.digest = lower ∧ hasNode node := by
  obtain ⟨-, references, decoded, nodes, -⟩ := h
  obtain ⟨bytes', node, bytes_known', node_eq, child_mem, lower_ne⟩ := refers
  obtain rfl := functional _ _ _ bytes_known bytes_known'
  obtain ⟨node', node_eq', tries, nodes_eq, -⟩ := Schema.references_cases decoded
  obtain rfl := Except.ok.inj (node_eq.symm.trans node_eq')
  obtain ⟨⟨suffix, digest⟩, entry_mem, rfl⟩ := List.mem_map.mp child_mem
  have member : ⟨occurrence.path.join suffix, digest⟩ ∈ references.nodes := by
    rw [nodes_eq]
    exact List.mem_append_left _ (List.mem_map.mpr ⟨_, entry_mem, rfl⟩)
  exact ⟨references, _, decoded, member, rfl, (nodes _ member).resolve_left lower_ne⟩

namespace Scheduler

variable {H : Hash} {store : Store} {schema : Schema} {known : Digest → Bytes → Prop}
  {task : Task} {tasks new : List Task} {scheduler after : Scheduler} {past later : List Occurrence}
  {rank : Digest → Nat} {count : Nat}

/-- A node with the digest was written, or is staged. -/
def Finished (past : List Occurrence) (scheduler : Scheduler) (digest : Digest) : Prop :=
  digest ∈ past.map Occurrence.digest ∨ ∃ path, scheduler.staging.digestAt? path = some digest

/-- Nodes are ranked in the order in which they were finished, after those that they refer to. -/
structure Ranked (H : Hash) (known : Digest → Bytes → Prop) (past : List Occurrence)
    (scheduler : Scheduler) (rank : Digest → Nat) (count : Nat) : Prop where
  lt_count : ∀ {digest}, Finished past scheduler digest → rank digest < count
  descends : ∀ {upper lower}, Finished past scheduler upper → Refers H known upper lower →
    Finished past scheduler lower ∧ rank lower < rank upper

namespace Ranked

theorem congr (h : Ranked H known past scheduler rank count)
    (finished_iff : ∀ {digest}, Finished later after digest ↔ Finished past scheduler digest) :
    Ranked H known later after rank count where
  lt_count finished := h.lt_count (finished_iff.mp finished)
  descends finished refers :=
    (h.descends (finished_iff.mp finished) refers).imp_left finished_iff.mpr

/-- A node that refers to finished ones only comes after all of them. -/
theorem insert (h : Ranked H known past scheduler rank count) (digest : Digest)
    (finished_iff : ∀ {other},
      Finished later after other ↔ other = digest ∨ Finished past scheduler other)
    (finished_of_refers : ∀ {lower}, Refers H known digest lower → Finished past scheduler lower) :
    ∃ rank count, Ranked H known later after rank count := by
  by_cases again : Finished past scheduler digest
  · refine ⟨rank, count, h.congr ?_⟩
    intro other
    rw [finished_iff, or_iff_right_iff_imp]
    rintro rfl
    exact again
  · have rank_eq {other : Digest} (finished : Finished past scheduler other) :
        Function.update rank digest count other = rank other := by
      refine Function.update_of_ne ?_ _ _
      rintro rfl
      exact again finished
    refine ⟨Function.update rank digest count, count + 1, ?_, ?_⟩
    · intro other finished
      rcases finished_iff.mp finished with rfl | finished
      · rw [Function.update_self]
        omega
      · rw [rank_eq finished]
        exact Nat.lt_succ_of_lt (h.lt_count finished)
    · intro upper lower finished refers
      rcases finished_iff.mp finished with rfl | finished
      · have lower_finished := finished_of_refers refers
        rw [Function.update_self, rank_eq lower_finished]
        exact ⟨finished_iff.mpr (.inr lower_finished), h.lt_count lower_finished⟩
      · obtain ⟨lower_finished, lt⟩ := h.descends finished refers
        rw [rank_eq finished, rank_eq lower_finished]
        exact ⟨finished_iff.mpr (.inr lower_finished), lt⟩

theorem step {placed : List Occurrence} (h : Ranked H known past scheduler rank count)
    (functional : Functional known) (coherent : Coherent (task :: tasks) scheduler)
    (addressed : Addressed H (task :: tasks) scheduler placed)
    (holds : Holds schema known (task :: tasks) scheduler)
    (sound : Sound H store (task :: tasks) scheduler)
    (written : ∀ {occurrence}, store.hasNode occurrence = true →
      occurrence.digest ∈ past.map Occurrence.digest)
    (step : Step H store scheduler task new after) :
    ∃ rank count, Ranked H known past after rank count := by
  rcases step.staging_cases with
    staging_eq | ⟨id, request, bytes, rfl, live, pending_eq, bytes_eq, staging_eq⟩
  · exact ⟨rank, count, h.congr (by simp [Finished, staging_eq])⟩
  · refine h.insert request.occurrence.digest ?_ ?_
    · intro other
      constructor
      · rintro (past_mem | ⟨path, staged⟩)
        · exact .inr (.inl past_mem)
        · rw [staging_eq, Staging.digestAt?_insertNode] at staged
          split at staged
          · exact .inl (Option.some.inj staged).symm
          · exact .inr (.inr ⟨path, staged⟩)
      · rintro (rfl | past_mem | ⟨path, staged⟩)
        · refine .inr ⟨request.occurrence.path, ?_⟩
          rw [staging_eq, Staging.digestAt?_insertNode_self]
        · exact .inl past_mem
        · exact .inr ⟨path, addressed.digestAt?_step step staged⟩
    · intro lower refers
      have backed := sound.backed_of_pending coherent live pending_eq bytes_eq
      obtain ⟨references, node, decoded, member, rfl, has⟩ :=
        backed.exists_of_refers functional (holds.known_of_live live bytes_eq) refers
      obtain ⟨_, _, -, -, -, node_ne⟩ := refers
      have claims : Claims H scheduler node :=
        claims_reference (Addressed.mem_bodies_of_live live bytes_eq) decoded member node_ne
      rcases has.of_claims (addressed.unambiguous coherent) claims with stored | staged
      · exact .inl (written stored)
      · exact .inr ⟨_, staged⟩

theorem works {placed : List Occurrence} (h : Ranked H known past scheduler rank count)
    (functional : Functional known)
    (digest_eq : ∀ digest bytes, known digest bytes → H bytes = digest)
    (coherent : Coherent tasks scheduler) (addressed : Addressed H tasks scheduler placed)
    (holds : Holds schema known tasks scheduler) (sound : Sound H store tasks scheduler)
    (written : ∀ {occurrence}, store.hasNode occurrence = true →
      occurrence.digest ∈ past.map Occurrence.digest)
    (works : Works H store tasks scheduler after) :
    ∃ rank count, Ranked H known past after rank count := by
  refine (works.keeps (fun tasks scheduler =>
    (∃ placed, Addressed H tasks scheduler placed) ∧ Holds schema known tasks scheduler ∧
      Sound H store tasks scheduler ∧ ∃ rank count, Ranked H known past scheduler rank count)
    ?_ coherent ⟨⟨_, addressed⟩, holds, sound, _, _, h⟩).2.2.2.2
  rintro _ _ _ _ _ coherent ⟨⟨placed, addressed⟩, holds, sound, rank, count, ranked⟩ step
  obtain ⟨skipped, after_addressed⟩ := addressed.step coherent step
  exact ⟨⟨_, after_addressed⟩, holds.step coherent step,
    sound.step coherent holds digest_eq step,
    ranked.step functional coherent addressed holds sound written step⟩

end Ranked

end Scheduler

namespace Session

open Scheduler

variable {H : Hash} {schema kept : Schema} {known : Digest → Bytes → Prop} {root : Digest}
  {wanted : Digest → Prop} {start : Store} {session next : Session} {action : Action}
  {occurrence upper lower : Occurrence} {rank : Digest → Nat} {count : Nat}

theorem Accounted.exists_put (h : Accounted start session)
    (blank : ∀ occurrence, start.hasNode occurrence = false)
    (stored : session.store.hasNode occurrence = true) :
    ∃ other ∈ session.putNodes, other.digest = occurrence.digest := by
  rcases h.stored stored with held | ⟨other, member, key_eq⟩
  · simp [blank] at held
  · exact ⟨other, member, Store.digest_eq_of_key_eq key_eq⟩

theorem Accounted.mem_digests (h : Accounted start session)
    (blank : ∀ occurrence, start.hasNode occurrence = false)
    (stored : session.store.hasNode occurrence = true) :
    occurrence.digest ∈ session.putNodes.map Occurrence.digest :=
  List.mem_map.mpr (h.exists_put blank stored)

theorem ranked_ofRoot (known : Digest → Bytes → Prop) (supports : start.Supports kept)
    (closed : start.Closed H kept) (started : ofRoot H start schema root = .ok session) :
    Ranked H known session.putNodes session.scheduler (fun _ => 0) 0 := by
  have tracked : Tracked H schema kept (fun _ _ => False) root (fun _ => True) start session :=
    (tracked_ofRoot _ (fun _ => trivial) supports closed started).2
  have unfinished {digest : Digest} (finished : Finished session.putNodes session.scheduler digest) :
      False := by
    rcases finished with past_mem | ⟨path, staged⟩
    · obtain ⟨occurrence, member, -⟩ := List.mem_map.mp past_mem
      obtain ⟨bytes, put_mem⟩ := Put.mem_occurrences_iff.mp member
      exact (tracked.progress.written _ put_mem).2
    · obtain ⟨bytes, found⟩ := Staging.digestAt?_eq_some_iff.mp staged
      exact (tracked.progress.within.bodies (Addressed.mem_bodies_of_staged found)).2
  exact ⟨fun finished => (unfinished finished).elim, fun finished => (unfinished finished).elim⟩

private theorem finished_commit_iff (session : Session) {digest : Digest} (past : List Occurrence) :
    Finished (past ++ session.scheduler.staging.puts.filterMap Put.occurrence?)
        { session.scheduler with staging := .empty } digest ↔
      Finished past session.scheduler digest := by
  constructor
  · rintro (past_mem | ⟨path, staged⟩)
    · rw [List.map_append, List.mem_append] at past_mem
      refine past_mem.imp_right ?_
      intro digest_mem
      obtain ⟨occurrence, member, rfl⟩ := List.mem_map.mp digest_mem
      obtain ⟨bytes, put_mem⟩ := Put.mem_occurrences_iff.mp member
      exact ⟨_, Staging.digestAt?_of_mem_puts put_mem⟩
    · simp at staged
  · rintro (past_mem | ⟨path, staged⟩)
    · exact .inl (by rw [List.map_append]; exact List.mem_append_left _ past_mem)
    · obtain ⟨bytes, found⟩ := Staging.digestAt?_eq_some_iff.mp staged
      refine .inl (List.mem_map.mpr ⟨⟨path, digest⟩, List.mem_append_right _ ?_, rfl⟩)
      exact Put.mem_occurrences_iff.mpr ⟨bytes, Staging.node_mem_puts found⟩

theorem Step.ranked (step : Step H session action next) (functional : Functional known)
    (covering : Covering H start known) (blank : ∀ occurrence, start.hasNode occurrence = false)
    (no_trie : ∀ occurrence, action ≠ .call (.addSubTrie occurrence))
    (answered : ∀ {bytes}, action.answer? = some bytes → known (H bytes) bytes)
    (coherent : Coherent [] session.scheduler)
    (tracked : Tracked H schema kept known root wanted start session)
    (h : Ranked H known session.putNodes session.scheduler rank count) :
    ∃ rank count, Ranked H known next.putNodes next.scheduler rank count := by
  cases step with
  | refuse | commitNothing | commitRefused | rejectWrites => exact ⟨rank, count, h⟩
  | @perform call tasks begun after turn begun_coherent works =>
      obtain ⟨past, addressed⟩ := tracked.addressed
      obtain ⟨opened, begun_addressed⟩ := addressed.turn coherent
        (fun occurrence same => no_trie occurrence (congrArg Action.call same)) turn
      have begun_ranked : Ranked H known session.putNodes begun rank count :=
        h.congr (by simp [Finished, Staging.digestAt?, turn.nodes_eq])
      exact begun_ranked.works functional (fun _ _ => covering.digest_eq) begun_coherent
        begun_addressed (tracked.progress.holds.turn turn fun same => answered (same ▸ rfl))
        (tracked.guarded.sound.turn turn) (tracked.accounted.mem_digests blank) works
  | commit =>
      refine ⟨rank, count, h.congr ?_⟩
      intro digest
      simp only [putNodes, List.filterMap_append]
      exact finished_commit_iff session _

/-- What can be read below a node has a lower rank, or is in a sub-trie below the root trie. -/
private theorem rank_lt_of_reads (tracked : Tracked H schema kept known root wanted start session)
    (covering : Covering H start known) (blank : ∀ occurrence, start.hasNode occurrence = false)
    (ranked : Ranked H known session.putNodes session.scheduler rank count)
    (leads : TransGen (session.store.Reads H schema) upper lower) :
    lower.path.isRootTrie = upper.path.isRootTrie ∧ rank lower.digest < rank upper.digest ∨
      lower.path.isRootTrie = false ∧ upper.path.isRootTrie = true := by
  have step {upper lower : Occurrence} (reads : session.store.Reads H schema upper lower) :
      lower.path.isRootTrie = upper.path.isRootTrie ∧ rank lower.digest < rank upper.digest ∨
        lower.path.isRootTrie = false ∧ upper.path.isRootTrie = true := by
    obtain ⟨references, read, member, lower_ne⟩ := reads
    obtain ⟨bytes, stored, -, decoded⟩ := Store.readReferences_eq_ok_iff.mp read
    obtain ⟨node, node_eq, tries, nodes_eq, subTries⟩ := Schema.references_cases decoded
    rw [nodes_eq] at member
    rcases List.mem_append.mp member with child | trie
    · obtain ⟨⟨suffix, digest⟩, entry_mem, rfl⟩ := List.mem_map.mp child
      have written : upper.digest ∈ session.putNodes.map Occurrence.digest :=
        tracked.accounted.mem_digests blank (by rw [Store.hasNode_eq_isSome_node?, stored]; rfl)
      have refers : Refers H known upper.digest digest :=
        ⟨bytes, node, tracked.known_of_stored covering stored, node_eq,
          List.mem_map_of_mem entry_mem, lower_ne⟩
      exact .inl ⟨rfl, (ranked.descends (.inl written) refers).2⟩
    · obtain ⟨owner_eq, key, path_eq⟩ := subTries lower trie
      exact .inr ⟨by rw [path_eq]; rfl, decide_eq_true owner_eq⟩
  induction leads with
  | single reads => exact step reads
  | tail _ reads ih =>
      rcases step reads with ⟨same, lt⟩ | ⟨lower_sub, between_root⟩
      · rcases ih with ⟨same', lt'⟩ | ⟨between_sub, upper_root⟩
        · exact .inl ⟨same.trans same', lt.trans lt'⟩
        · exact .inr ⟨same.trans between_sub, upper_root⟩
      · rcases ih with ⟨same', -⟩ | ⟨between_sub, -⟩
        · exact .inr ⟨lower_sub, same'.symm.trans between_root⟩
        · simp [between_sub] at between_root

theorem Tracked.not_descends (tracked : Tracked H schema kept known root wanted start session)
    (covering : Covering H start known) (blank : ∀ occurrence, start.hasNode occurrence = false)
    (ranked : Ranked H known session.putNodes session.scheduler rank count) {height : Nat}
    (deep : 2 * session.store.nodes.size < height) (occurrence : Occurrence) :
    ¬ Descends (session.store.Reads H schema) height occurrence := by
  intro descends
  have height_le := descends.height_le
    (fun node => (node.path.isRootTrie, session.store.key node)) ?_
    (session.store.nodes.keys.map (Prod.mk true) ++ session.store.nodes.keys.map (Prod.mk false)) ?_
  · simp only [List.length_append, List.length_map, Std.TreeMap.length_keys] at height_le
    omega
  · intro upper lower _ leads same
    obtain ⟨trie_eq, key_eq⟩ := Prod.mk.inj same
    have digest_eq := Store.digest_eq_of_key_eq key_eq
    rcases rank_lt_of_reads tracked covering blank ranked leads with ⟨-, lt⟩ | ⟨lower_sub, upper_root⟩
    · rw [digest_eq] at lt
      exact Nat.lt_irrefl _ lt
    · simp [lower_sub, upper_root] at trie_eq
  · rintro lower next - ⟨references, read, -, -⟩
    obtain ⟨bytes, stored, -, -⟩ := Store.readReferences_eq_ok_iff.mp read
    have key_mem : session.store.key lower ∈ session.store.nodes.keys := by
      refine Std.TreeMap.mem_keys.mpr (Std.TreeMap.mem_iff_isSome_getElem?.mpr ?_)
      rw [← Store.node?, stored]
      rfl
    cases trie_eq : lower.path.isRootTrie with
    | true => exact List.mem_append_left _ (List.mem_map_of_mem key_mem)
    | false => exact List.mem_append_right _ (List.mem_map_of_mem key_mem)

theorem Completes.ranked {actions : List Action} {final : Session}
    (completes : Completes H schema start root actions final) (supports : start.Supports kept)
    (closed : start.Closed H kept) (keeps : kept = schema ∨ kept = .plain)
    (functional : Functional known) (covering : Covering H start known)
    (blank : ∀ occurrence, start.hasNode occurrence = false)
    (codes_wanted : ∀ {code}, ReachableCode H schema known root code → wanted code)
    (added : ∀ {digest path}, .call (.addCode digest path) ∈ actions → wanted digest)
    (answered : ∀ bytes ∈ actions.filterMap Action.answer?, known (H bytes) bytes) :
    Coherent [] final.scheduler ∧
      Tracked H schema kept known root wanted start final ∧
      ∃ rank count, Ranked H known final.putNodes final.scheduler rank count := by
  refine completes.keeps (P := fun session => ∃ rank count,
      Ranked H known session.putNodes session.scheduler rank count)
    supports closed keeps functional codes_wanted added answered
    (fun started => ⟨_, _, ranked_ofRoot known supports closed started⟩) ?_
  rintro session action next member coherent tracked ⟨rank, count, ranked⟩ step
  refine step.ranked functional covering blank ?_ ?_ coherent tracked ranked
  · rintro occurrence rfl
    exact completes.noTrie occurrence member
  · exact fun answer => answered _ (List.mem_filterMap.mpr ⟨_, member, answer⟩)

end Session

end TrieSync
