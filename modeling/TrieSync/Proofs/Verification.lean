import TrieSync.Proofs.Knowledge
import TrieSync.Proofs.Walk
import TrieSync.Store.Verify

namespace TrieSync

open Relation
open Scheduler

namespace Store

variable {H : Hash} {schema : Schema} {store : Store} {occurrence upper lower : Occurrence}
  {references : References}

theorem readReferences_eq_ok_iff :
    store.readReferences H schema occurrence = .ok references ↔
      ∃ bytes, store.node? occurrence = some bytes ∧ H bytes = occurrence.digest ∧
        schema.references H occurrence.path bytes = .ok references := by
  unfold readReferences readNode
  rw [bind_eq_ok]
  constructor
  · rintro ⟨bytes, read, decoded⟩
    split at read
    · simp at read
    · rename_i stored
      split at read
      · rename_i digest_eq
        obtain rfl := Except.ok.inj read
        refine ⟨_, stored, digest_eq, ?_⟩
        split at decoded
        · simp at decoded
        · rename_i found
          rw [found, Except.ok.inj decoded]
      · simp at read
  · rintro ⟨bytes, stored, digest_eq, decoded⟩
    exact ⟨bytes, by simp [stored, digest_eq], by simp [decoded]⟩

theorem verifyCodes_eq_ok_iff (codes : List Digest) :
    store.verifyCodes H codes = .ok () ↔
      ∀ code ∈ codes, ∃ bytes, store.code? code = some bytes ∧ H bytes = code := by
  have read_iff (code : Digest) : (∃ bytes, store.readCode H code = .ok bytes) ↔
      ∃ bytes, store.code? code = some bytes ∧ H bytes = code := by
    unfold readCode
    cases store.code? code with
    | none => simp
    | some bytes => by_cases digest_eq : H bytes = code <;> simp [digest_eq]
  induction codes with
  | nil => simp [verifyCodes]
  | cons code codes ih =>
      rw [verifyCodes, bind_eq_ok, exists_and_right, List.forall_mem_cons]
      exact and_congr (read_iff code) ih

/-- A node that is held refers to another one that is not empty. -/
def Reads (H : Hash) (schema : Schema) (store : Store) (upper lower : Occurrence) : Prop :=
  ∃ references, store.readReferences H schema upper = .ok references ∧
    lower ∈ references.nodes ∧ lower.digest ≠ emptyRoot H

/-- A node is held, and the code that it refers to. -/
def Whole (H : Hash) (schema : Schema) (store : Store) (occurrence : Occurrence) : Prop :=
  ∃ references, store.readReferences H schema occurrence = .ok references ∧
    ∀ code ∈ references.codes, ∃ bytes, store.code? code = some bytes ∧ H bytes = code

/-- The list holds a node and everything below it once, unless the node is the empty root. -/
structure Visits (H : Hash) (schema : Schema) (store : Store) (occurrence : Occurrence)
    (visited : List Occurrence) : Prop where
  nodup : visited.Nodup
  mem_iff : ∀ {lower}, lower ∈ visited ↔
    occurrence.digest ≠ emptyRoot H ∧ ReflTransGen (store.Reads H schema) occurrence lower

theorem reads_branching (H : Hash) (schema : Schema) (store : Store) :
    Branching (store.Reads H schema) := by
  refine .of_references H schema
    (fun upper references => store.readReferences H schema upper = .ok references) ?_ ?_ ?_
  · intro upper references read
    obtain ⟨bytes, -, -, decoded⟩ := readReferences_eq_ok_iff.mp read
    exact ⟨bytes, decoded⟩
  · exact fun read read' => Except.ok.inj (read.symm.trans read')
  · exact fun ⟨references, read, member, _⟩ => ⟨references, read, member⟩

private theorem leadsTo_iff (read : store.readReferences H schema upper = .ok references) :
    ReflTransGen (store.Reads H schema) upper lower ↔ lower = upper ∨
      ∃ node ∈ references.nodes, node.digest ≠ emptyRoot H ∧
        ReflTransGen (store.Reads H schema) node lower := by
  rw [ReflTransGen.cases_head_iff]
  refine or_congr eq_comm ⟨?_, ?_⟩
  · rintro ⟨node, ⟨other, read', member, digest_ne⟩, leads⟩
    obtain rfl := Except.ok.inj (read.symm.trans read')
    exact ⟨node, member, digest_ne, leads⟩
  · rintro ⟨node, member, digest_ne, leads⟩
    exact ⟨node, ⟨references, read, member, digest_ne⟩, leads⟩

private theorem foldrM_visits {height : Nat} {nodes : List Occurrence}
    (apart : nodes.Pairwise Occurrence.Apart)
    (visits : ∀ node ∈ nodes, ∃ visited,
      store.verifyWithin H schema height node = .ok visited.length ∧
      Visits H schema store node visited) :
    ∃ visited : List Occurrence,
      nodes.foldrM (fun node count => do
        return count + (← store.verifyWithin H schema height node)) 1 = .ok (visited.length + 1) ∧
      visited.Nodup ∧ ∀ {lower}, lower ∈ visited ↔ ∃ node ∈ nodes,
        node.digest ≠ emptyRoot H ∧ ReflTransGen (store.Reads H schema) node lower := by
  induction nodes with
  | nil => exact ⟨[], rfl, .nil, by simp⟩
  | cons node nodes ih =>
      obtain ⟨node_apart, apart⟩ := List.pairwise_cons.mp apart
      obtain ⟨rest, rest_eq, rest_nodup, mem_rest⟩ :=
        ih apart fun other member => visits other (List.mem_cons_of_mem _ member)
      obtain ⟨visited, verified, node_visits⟩ := visits node List.mem_cons_self
      refine ⟨visited ++ rest, ?_, ?_, ?_⟩
      · rw [List.foldrM_cons, rest_eq, List.length_append]
        simp only [bind, Except.bind, verified, pure, Except.pure, Except.ok.injEq]
        omega
      · refine node_visits.nodup.append rest_nodup ?_
        intro lower of_node of_rest
        obtain ⟨-, leads⟩ := node_visits.mem_iff.mp of_node
        obtain ⟨other, other_mem, -, leads'⟩ := mem_rest.mp of_rest
        exact (reads_branching H schema store).not_leadsTo_of_apart (node_apart other other_mem)
          leads leads'
      · intro lower
        rw [List.mem_append, node_visits.mem_iff, mem_rest]
        simp

private theorem verifyWithin_succ_visits {height : Nat} (whole : Whole H schema store occurrence)
    (visits : ∀ {references node}, store.readReferences H schema occurrence = .ok references →
      node ∈ references.nodes → ∃ visited,
        store.verifyWithin H schema height node = .ok visited.length ∧
        Visits H schema store node visited) (digest_ne : occurrence.digest ≠ emptyRoot H) :
    ∃ visited, store.verifyWithin H schema (height + 1) occurrence = .ok visited.length ∧
      Visits H schema store occurrence visited := by
  obtain ⟨references, read, codes⟩ := whole
  obtain ⟨bytes, -, -, decoded⟩ := readReferences_eq_ok_iff.mp read
  obtain ⟨visited, verified, nodup, mem_iff⟩ :=
    foldrM_visits (Schema.references_below decoded).apart fun node member => visits read member
  refine ⟨occurrence :: visited, ?_, ?_, ?_⟩
  · rw [verifyWithin, if_neg digest_ne, read]
    simp only [bind, Except.bind, (verifyCodes_eq_ok_iff _).mpr codes]
    exact verified
  · refine List.nodup_cons.mpr ⟨?_, nodup⟩
    intro member
    obtain ⟨node, node_mem, node_ne, leads⟩ := mem_iff.mp member
    have below : TransGen (store.Reads H schema) occurrence occurrence :=
      .head' ⟨references, read, node_mem, node_ne⟩ leads
    exact (reads_branching H schema store).not_covers_of_transGen below (.refl _)
  · intro lower
    rw [List.mem_cons, mem_iff, leadsTo_iff read, and_iff_right digest_ne]

/-- A check that goes deep enough finds all that is below a node, if all of that is held. -/
theorem verifyWithin_visits {height : Nat}
    (shallow : ¬ Descends (store.Reads H schema) (height + 1) occurrence)
    (whole : ∀ {lower}, occurrence.digest ≠ emptyRoot H →
      ReflTransGen (store.Reads H schema) occurrence lower → Whole H schema store lower) :
    ∃ visited, store.verifyWithin H schema (height + 2) occurrence = .ok visited.length ∧
      Visits H schema store occurrence visited := by
  have visits_empty {height : Nat} {node : Occurrence} (digest_eq : node.digest = emptyRoot H) :
      ∃ visited, store.verifyWithin H schema (height + 1) node = .ok visited.length ∧
        Visits H schema store node visited :=
    ⟨[], by rw [verifyWithin, if_pos digest_eq]; rfl, .nil, by simp [digest_eq]⟩
  induction height generalizing occurrence with
  | zero =>
      by_cases digest_eq : occurrence.digest = emptyRoot H
      · exact visits_empty digest_eq
      · refine verifyWithin_succ_visits (whole digest_eq .refl) ?_ digest_eq
        intro references node read member
        by_cases node_eq : node.digest = emptyRoot H
        · exact visits_empty node_eq
        · exact absurd ⟨node, ⟨references, read, member, node_eq⟩, trivial⟩ shallow
  | succ height ih =>
      by_cases digest_eq : occurrence.digest = emptyRoot H
      · exact visits_empty digest_eq
      · refine verifyWithin_succ_visits (whole digest_eq .refl) ?_ digest_eq
        intro references node read member
        by_cases node_eq : node.digest = emptyRoot H
        · exact visits_empty node_eq
        · have reads : store.Reads H schema occurrence node := ⟨references, read, member, node_eq⟩
          refine ih (fun deep => shallow ⟨node, reads, deep⟩) ?_
          exact fun _ leads => whole digest_eq (.head reads leads)

private theorem verified_of_foldrM {height count : Nat} {nodes : List Occurrence}
    (verified : nodes.foldrM (fun node count => do
      return count + (← store.verifyWithin H schema height node)) 1 = .ok count) :
    ∀ node ∈ nodes, ∃ count, store.verifyWithin H schema height node = .ok count := by
  induction nodes generalizing count with
  | nil => simp
  | cons node nodes ih =>
      rw [List.foldrM_cons, bind_eq_ok] at verified
      obtain ⟨rest, rest_eq, verified⟩ := verified
      obtain ⟨below, below_eq, -⟩ := bind_eq_ok.mp verified
      exact List.forall_mem_cons.mpr ⟨⟨below, below_eq⟩, ih rest_eq⟩

theorem whole_of_verifyWithin {height count : Nat}
    (verified : store.verifyWithin H schema height occurrence = .ok count)
    (digest_ne : occurrence.digest ≠ emptyRoot H)
    (leads : ReflTransGen (store.Reads H schema) occurrence lower) :
    Whole H schema store lower := by
  induction height generalizing occurrence count with
  | zero => simp [verifyWithin] at verified
  | succ height ih =>
      rw [verifyWithin, if_neg digest_ne, bind_eq_ok] at verified
      obtain ⟨references, read, verified⟩ := verified
      obtain ⟨_, codes_verified, nodes_verified⟩ := bind_eq_ok.mp verified
      rcases (leadsTo_iff read).mp leads with rfl | ⟨node, member, node_ne, leads⟩
      · exact ⟨references, read, (verifyCodes_eq_ok_iff _).mp codes_verified⟩
      · obtain ⟨below, node_verified⟩ := verified_of_foldrM nodes_verified node member
        exact ih node_verified node_ne leads

theorem visits_of_verifyWithin {height count : Nat}
    (verified : store.verifyWithin H schema height occurrence = .ok count) :
    ∃ visited, count = visited.length ∧ Visits H schema store occurrence visited := by
  induction height generalizing occurrence count with
  | zero => simp [verifyWithin] at verified
  | succ height ih =>
      by_cases digest_eq : occurrence.digest = emptyRoot H
      · rw [verifyWithin, if_pos digest_eq] at verified
        obtain rfl := Except.ok.inj verified
        exact ⟨[], rfl, .nil, by simp [digest_eq]⟩
      · have below {references : References} {node : Occurrence}
            (read : store.readReferences H schema occurrence = .ok references)
            (member : node ∈ references.nodes) : ∃ visited,
              store.verifyWithin H schema height node = .ok visited.length ∧
              Visits H schema store node visited := by
          rw [verifyWithin, if_neg digest_eq, bind_eq_ok] at verified
          obtain ⟨_, read', verified⟩ := verified
          obtain rfl := Except.ok.inj (read.symm.trans read')
          obtain ⟨_, -, nodes_verified⟩ := bind_eq_ok.mp verified
          obtain ⟨count, node_verified⟩ := verified_of_foldrM nodes_verified node member
          obtain ⟨visited, rfl, visits⟩ := ih node_verified
          exact ⟨visited, node_verified, visits⟩
        obtain ⟨visited, verified', visits⟩ :=
          verifyWithin_succ_visits (whole_of_verifyWithin verified digest_eq .refl) below digest_eq
        exact ⟨visited, Except.ok.inj (verified.symm.trans verified'), visits⟩

theorem key_mem_keys {bytes : Bytes} (stored : store.node? occurrence = some bytes) :
    store.key occurrence ∈ store.nodes.keys := by
  refine Std.TreeMap.mem_keys.mpr (Std.TreeMap.mem_iff_isSome_getElem?.mpr ?_)
  exact Option.isSome_iff_exists.mpr ⟨bytes, stored⟩

theorem not_descends_of_byPath (keying_eq : store.keying = .byPath) {height : Nat}
    (deep : store.nodes.size < height) (occurrence : Occurrence) :
    ¬ Descends (store.Reads H schema) height occurrence := by
  intro descends
  have height_le := descends.height_le id ?_ store.nodes.keys ?_
  · rw [Std.TreeMap.length_keys] at height_le
    omega
  · rintro upper lower - leads rfl
    exact (reads_branching H schema store).not_covers_of_transGen leads (.refl _)
  · rintro lower next - ⟨references, read, -, -⟩
    obtain ⟨bytes, stored, -, -⟩ := readReferences_eq_ok_iff.mp read
    simpa only [key, keying_eq, id] using key_mem_keys stored

end Store

end TrieSync
