import TrieSync.Proofs.Addressing
import TrieSync.Proofs.Write

namespace TrieSync

/-- No two different byte strings are known of one digest. -/
def Functional (known : Digest → Bytes → Prop) : Prop :=
  ∀ digest left right, known digest left → known digest right → left = right

theorem Scheduler.Leads.branching {H : Hash} {schema : Schema} {known : Digest → Bytes → Prop}
    (functional : Functional known) : Branching (Leads H schema known) := by
  refine .of_references H schema (fun upper references => ∃ bytes, known upper.digest bytes ∧
    schema.references H upper.path bytes = .ok references) ?_ ?_ ?_
  · rintro upper references ⟨bytes, -, decoded⟩
    exact ⟨bytes, decoded⟩
  · rintro upper left right ⟨bytes, bytes_known, decoded⟩ ⟨bytes', bytes_known', decoded'⟩
    obtain rfl := functional _ _ _ bytes_known bytes_known'
    exact Except.ok.inj (decoded.symm.trans decoded')
  · rintro upper lower ⟨bytes, references, bytes_known, decoded, member, -⟩
    exact ⟨references, ⟨bytes, bytes_known, decoded⟩, member⟩

/-- A call that adds no trie, and no code but what is wanted. -/
def Call.Fetches (wanted : Digest → Prop) : Call → Prop
  | .addSubTrie _ => False
  | .addCode digest _ => wanted digest
  | .missing _ | .processNode _ _ | .processCode _ _ => True

/-- The bytes that are given, for a node or for code. -/
def Call.answer? : Call → Option Bytes
  | .processNode _ bytes | .processCode _ bytes => some bytes
  | .addSubTrie _ | .addCode _ _ | .missing _ => none

open Scheduler

/-- What a root leads to, unless it is that of the empty trie. -/
def Reachable (H : Hash) (schema : Schema) (known : Digest → Bytes → Prop) (root : Digest)
    (occurrence : Occurrence) : Prop :=
  root ≠ emptyRoot H ∧ Relation.ReflTransGen (Leads H schema known) ⟨.root, root⟩ occurrence

/-- The code that reachable nodes refer to. -/
def ReachableCode (H : Hash) (schema : Schema) (known : Digest → Bytes → Prop) (root : Digest)
    (code : Digest) : Prop :=
  ∃ occurrence bytes references, Reachable H schema known root occurrence ∧
    known occurrence.digest bytes ∧
    schema.references H occurrence.path bytes = .ok references ∧ code ∈ references.codes

namespace Reachable

variable {H : Hash} {schema : Schema} {known : Digest → Bytes → Prop} {root : Digest}
  {upper lower left right : Occurrence}

theorem tail (h : Reachable H schema known root upper) (leads : Leads H schema known upper lower) :
    Reachable H schema known root lower :=
  ⟨h.1, h.2.tail leads⟩

theorem mono {more : Digest → Bytes → Prop}
    (more_of_known : ∀ digest bytes, known digest bytes → more digest bytes)
    (h : Reachable H schema known root lower) : Reachable H schema more root lower :=
  ⟨h.1, Relation.ReflTransGen.mono (fun _ _ => Leads.mono more_of_known) _ _ h.2⟩

theorem eq_of_path_eq (functional : Functional known) (h : Reachable H schema known root left)
    (h' : Reachable H schema known root right) (path_eq : left.path = right.path) : left = right :=
  (Leads.branching functional).eq_of_path_eq h.2 h'.2 path_eq

end Reachable

namespace CodeTable

variable {table : CodeTable} {code : Digest}

/-- Code is to be handed out, or was handed out and not yet answered. -/
def Asks (table : CodeTable) (code : Digest) : Prop :=
  (∃ path, ⟨path, code⟩ ∈ table.queue) ∨ code ∈ table.inFlight

theorem Asks.of_insert {digest : Digest} {path : Path} {parent : Option RequestId}
    (h : (table.insert digest path parent).Asks code) : table.Asks code ∨ code = digest := by
  unfold insert at h
  split at h
  · exact .inl h
  · rcases h with ⟨other, member⟩ | member
    · rcases Std.TreeSet.mem_insert.mp member with same | member
      · exact .inr (congrArg Occurrence.digest (Std.LawfulEqCmp.compare_eq_iff_eq.mp same)).symm
      · exact .inl (.inl ⟨other, member⟩)
    · exact .inl (.inr member)

theorem Asks.of_handOut {max : Nat} (h : (table.handOut max).2.Asks code) : table.Asks code := by
  simp only [handOut] at h
  rcases h with ⟨path, member⟩ | member
  · exact .inl ⟨path, ((Entries.mem_foldl_erase_iff _ _ _).mp member).1⟩
  · rw [List.foldl_map, Entries.mem_foldl_insert_iff] at member
    rcases member with member | member
    · obtain ⟨⟨path, digest⟩, entry_mem, rfl⟩ := List.mem_map.mp member
      refine .inl ⟨path, Std.TreeSet.mem_toList.mp ?_⟩
      split at entry_mem
      · exact entry_mem
      · exact List.mem_of_mem_take entry_mem
    · exact .inr member

theorem Asks.of_remove {digest : Digest} (h : (table.remove digest).2.Asks code) :
    table.Asks code := by
  unfold remove at h
  dsimp only at h
  split at h
  · exact h.imp_right Std.TreeSet.mem_of_mem_erase
  · refine h.imp ?_ Std.TreeSet.mem_of_mem_erase
    exact fun ⟨path, member⟩ => ⟨path, Std.TreeSet.mem_of_mem_erase member⟩

end CodeTable

/-- A write puts a reachable node, or code that is wanted and was not stored from the start. -/
def Put.Wanted (H : Hash) (schema : Schema) (known : Digest → Bytes → Prop) (root : Digest)
    (wanted : Digest → Prop) (start : Store) : Put → Prop
  | node occurrence bytes =>
      Reachable H schema known root occurrence ∧ known occurrence.digest bytes
  | code digest bytes =>
      start.hasCode digest = false ∧ wanted digest ∧ known digest bytes

namespace Scheduler

variable {H : Hash} {schema : Schema} {known : Digest → Bytes → Prop} {root : Digest}
  {wanted : Digest → Prop} {start store : Store} {task : Task} {tasks new : List Task}
  {scheduler after : Scheduler} {past : List Occurrence}

/-- All nodes that a scheduler misses or has at their places are reachable. -/
structure Reaching (H : Hash) (schema : Schema) (known : Digest → Bytes → Prop) (root : Digest)
    (tasks : List Task) (scheduler : Scheduler) : Prop where
  missing : ∀ {occurrence}, occurrence ∈ missingNodes H tasks scheduler →
    Reachable H schema known root occurrence
  bodies : ∀ {occurrence bytes}, (occurrence, bytes) ∈ scheduler.bodies →
    Reachable H schema known root occurrence ∧ known occurrence.digest bytes

theorem Reaching.shift (h : Reaching H schema known root tasks scheduler)
    (schema_eq : scheduler.schema = schema) (shift : Shift H known tasks scheduler new after) :
    Reaching H schema known root new after := by
  cases shift with
  | keep missing_perm bodies_perm =>
      exact ⟨fun member => h.missing (missing_perm.subset member),
        fun member => h.bodies (bodies_perm.subset member)⟩
  | skip missing_perm bodies_perm =>
      exact ⟨fun member => h.missing (missing_perm.subset (List.mem_cons_of_mem _ member)),
        fun member => h.bodies (bodies_perm.subset member)⟩
  | @put occurrence bytes references rest bytes_known decoded missing_perm after_perm bodies_perm =>
      have reachable := h.missing (missing_perm.symm.subset List.mem_cons_self)
      constructor
      · intro node member
        rcases List.mem_append.mp (after_perm.subset member) with member | member
        · obtain ⟨node_mem, digest_ne⟩ := List.mem_filter.mp member
          exact reachable.tail ⟨bytes, references, bytes_known, schema_eq ▸ decoded, node_mem,
            by simpa using digest_ne⟩
        · exact h.missing (missing_perm.symm.subset (List.mem_cons_of_mem _ member))
      · intro node body member
        rcases List.mem_cons.mp (bodies_perm.subset member) with same | member
        · obtain ⟨rfl, rfl⟩ := Prod.mk.inj same
          exact ⟨reachable, bytes_known⟩
        · exact h.bodies member

theorem Reaching.commit (h : Reaching H schema known root [] scheduler) :
    Reaching H schema known root [] { scheduler with staging := .empty } where
  missing member := h.missing member
  bodies body := by
    refine h.bodies (List.mem_append_left _ ?_)
    simpa [Scheduler.bodies, Staging.empty] using body

theorem Reaching.ofRoot (H : Hash) (schema : Schema) (known : Digest → Bytes → Prop)
    (root : Digest) : Reaching H schema known root [.node none ⟨.root, root⟩] (idle schema) where
  missing {occurrence} member := by
    have opened : occurrence ∈ if root = emptyRoot H then [] else [⟨.root, root⟩] := by
      have none_live : (idle schema).requests.requests = [] := rfl
      rwa [missingNodes, none_live, List.flatMap_nil, List.nil_append, List.flatMap_singleton]
        at member
    split at opened
    · simp at opened
    · rename_i digest_ne
      obtain rfl := List.mem_singleton.mp opened
      exact ⟨digest_ne, .refl⟩
  bodies member := by
    simp [Scheduler.bodies, idle, RequestTable.requests, RequestTable.empty, Staging.empty] at member

/-- All nodes that a scheduler asks for and stages are reachable, and all code is wanted. -/
structure Within (H : Hash) (schema : Schema) (known : Digest → Bytes → Prop) (root : Digest)
    (wanted : Digest → Prop) (start : Store) (tasks : List Task) (scheduler : Scheduler) : Prop where
  missing : ∀ {occurrence}, occurrence ∈ missingNodes H tasks scheduler →
    Reachable H schema known root occurrence
  bodies : ∀ {occurrence bytes}, (occurrence, bytes) ∈ scheduler.bodies →
    Reachable H schema known root occurrence ∧ known occurrence.digest bytes
  codes : ∀ {parent path code}, .code parent path code ∈ tasks → wanted code
  asked : ∀ {code}, scheduler.codes.Asks code → start.hasCode code = false ∧ wanted code
  staged : ∀ {code bytes}, scheduler.staging.codes[code]? = some bytes →
    Put.Wanted H schema known root wanted start (.code code bytes)

namespace Within

theorem puts (h : Within H schema known root wanted start tasks scheduler) {put : Put}
    (member : put ∈ scheduler.staging.puts) : put.Wanted H schema known root wanted start := by
  cases put with
  | node occurrence bytes =>
      exact h.bodies (Addressed.mem_bodies_of_staged (Staging.node_mem_puts_iff.mp member))
  | code code bytes => exact h.staged (Staging.code_mem_puts_iff.mp member)

private theorem reaching (h : Within H schema known root wanted start tasks scheduler) :
    Reaching H schema known root tasks scheduler :=
  ⟨h.missing, h.bodies⟩

theorem step (h : Within H schema known root wanted start (task :: tasks) scheduler)
    (coherent : Coherent (task :: tasks) scheduler)
    (addressed : Addressed H (task :: tasks) scheduler past)
    (holds : Holds schema known (task :: tasks) scheduler) (includes : store.Includes start)
    (codes_wanted : ∀ {code}, ReachableCode H schema known root code → wanted code)
    (step : Step H store scheduler task new after) :
    Within H schema known root wanted start (new ++ tasks) after := by
  obtain ⟨missing, bodies⟩ :=
    h.reaching.shift holds.schema_eq (addressed.shift_of_step coherent holds step)
  refine ⟨missing, bodies, ?_, ?_, ?_⟩
  · intro parent path code member
    rcases List.mem_append.mp member with member | member
    · obtain ⟨occurrence, bytes, parents, references, rfl, decoded, code_mem⟩ :=
        step.code_cases member
      have opened : occurrence ∈ missingNodes H (.place occurrence bytes parents :: tasks) scheduler :=
        List.mem_append_right _ (by simp [Task.opens])
      exact codes_wanted ⟨occurrence, bytes, references, h.missing opened,
        holds.placed List.mem_cons_self, holds.schema_eq ▸ decoded, code_mem⟩
    · exact h.codes (List.mem_cons_of_mem _ member)
  · intro code asked
    rcases step.codes_cases with codes_eq | ⟨parent, path, digest, rfl, -, notStored, codes_eq⟩
    · exact h.asked (codes_eq ▸ asked)
    · rw [codes_eq] at asked
      rcases asked.of_insert with asked | rfl
      · exact h.asked asked
      · refine ⟨?_, h.codes List.mem_cons_self⟩
        by_contra stored
        rw [Bool.not_eq_false] at stored
        simp [includes.hasCode stored] at notStored
  · intro code bytes staged
    exact h.staged (step.staged_codes ▸ staged)

theorem works (h : Within H schema known root wanted start tasks scheduler)
    (coherent : Coherent tasks scheduler) (addressed : Addressed H tasks scheduler past)
    (holds : Holds schema known tasks scheduler) (includes : store.Includes start)
    (codes_wanted : ∀ {code}, ReachableCode H schema known root code → wanted code)
    (works : Works H store tasks scheduler after) :
    Within H schema known root wanted start [] after := by
  refine (works.keeps (fun tasks scheduler => Holds schema known tasks scheduler ∧
    (∃ past, Addressed H tasks scheduler past) ∧
    Within H schema known root wanted start tasks scheduler) ?_ coherent
    ⟨holds, ⟨_, addressed⟩, h⟩).2.2.2
  rintro _ _ _ _ _ coherent ⟨holds, ⟨past, addressed⟩, within⟩ step
  obtain ⟨skipped, after_addressed⟩ := addressed.step coherent step
  exact ⟨holds.step coherent step, ⟨_, after_addressed⟩,
    within.step coherent addressed holds includes codes_wanted step⟩

section turn

variable {call : Call} {begun : Scheduler}

theorem turn (h : Within H schema known root wanted start [] scheduler)
    (coherent : Coherent [] scheduler) (schema_eq : scheduler.schema = schema)
    (codes_wanted : ∀ {code}, ReachableCode H schema known root code → wanted code)
    (fetches : call.Fetches wanted)
    (delivered : ∀ {bytes}, call.answer? = some bytes → known (H bytes) bytes)
    (turn : Turn H scheduler call tasks begun) :
    Within H schema known root wanted start tasks begun := by
  have no_trie occurrence (same : call = .addSubTrie occurrence) : False := by
    subst same
    exact fetches
  have delivered_node {path : Path} {bytes : Bytes} (same : call = .processNode path bytes) :
      known (H bytes) bytes := delivered (same ▸ rfl)
  obtain ⟨missing, bodies⟩ :=
    h.reaching.shift schema_eq (Addressed.shift_of_turn coherent no_trie delivered_node turn)
  cases turn with
  | addSubTrie => exact fetches.elim
  | addCode =>
      refine ⟨missing, bodies, ?_, h.asked, h.staged⟩
      intro parent path code member
      rw [(Task.code.inj (List.mem_singleton.mp member)).2.2]
      exact fetches
  | missing => exact ⟨missing, bodies, by simp, fun asked => h.asked asked.of_handOut, h.staged⟩
  | @processNode path bytes id request references responsible inFlight live path_eq digest_eq
      decoded =>
      refine ⟨missing, bodies, ?_, ?_, ?_⟩
      · intro parent other code member
        have unknown := coherent.counted.wellFormed.unknown_of_inFlight inFlight live
        have opened : request.occurrence ∈ missingNodes H [] scheduler :=
          Addressed.mem_missingNodes live unknown request.occurrence_mem_occurrences
        refine codes_wanted ⟨request.occurrence, bytes, references, h.missing opened,
          digest_eq ▸ delivered rfl, by rw [path_eq, ← schema_eq, decoded], ?_⟩
        simp only [References.tasks, Request.copies, List.mem_append, List.mem_map,
          List.mem_singleton] at member
        rcases member with (⟨_, -, same⟩ | ⟨_, code_mem, same⟩ | same) | ⟨_, -, same⟩
        · simp at same
        · exact (Task.code.inj same).2.2 ▸ code_mem
        · simp at same
        · simp at same
      · intro code asked
        rw [codes_awaited] at asked
        exact h.asked asked
      · intro code known_bytes staged
        rw [staging_awaited] at staged
        exact h.staged staged
  | @processCode digest bytes inFlight digest_eq =>
      refine ⟨missing, bodies, by simp, fun asked => h.asked asked.of_remove, ?_⟩
      intro code other staged
      rw [Staging.insertCode, Entries.getElem?_insert] at staged
      split at staged
      · rename_i same
        subst same
        obtain rfl := Option.some.inj staged
        obtain ⟨notStored, reachable⟩ := h.asked (.inr inFlight)
        exact ⟨notStored, reachable, digest_eq ▸ delivered rfl⟩
      · exact h.staged staged

end turn

end Within

end Scheduler

end TrieSync
