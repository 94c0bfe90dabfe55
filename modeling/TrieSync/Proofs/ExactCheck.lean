import Mathlib.Data.Set.Card
import TrieSync.Proofs.AccountSync
import TrieSync.Proofs.Recurrence

namespace TrieSync

open Relation
open Scheduler

namespace Store

variable {H : Hash} {schema : Schema} {store : Store} {occurrence upper lower : Occurrence}
  {error : ReadError} {height count : Nat}

/-- A node is held and can be read at its place, and so is the code that it refers to. -/
def Intact (H : Hash) (schema : Schema) (store : Store) (occurrence : Occurrence) : Prop :=
  ∃ bytes references, store.node? occurrence = some bytes ∧ H bytes = occurrence.digest ∧
    schema.references H occurrence.path bytes = .ok references ∧
    ∀ code ∈ references.codes, ∃ blob, store.code? code = some blob ∧ H blob = code

/-- What can be wrong with a node, or with code that it refers to, and the error that tells it. -/
inductive Defect (H : Hash) (schema : Schema) (store : Store) (occurrence : Occurrence) :
    ReadError → Prop
  | missingNode (absent : store.node? occurrence = none) :
      Defect H schema store occurrence (.missingNode occurrence)
  | corruptNode {bytes : Bytes} (stored : store.node? occurrence = some bytes)
      (digest_ne : H bytes ≠ occurrence.digest) :
      Defect H schema store occurrence (.corruptNode occurrence)
  | undecodable {bytes : Bytes} {cause : ReferenceError}
      (stored : store.node? occurrence = some bytes) (digest_eq : H bytes = occurrence.digest)
      (failed : schema.references H occurrence.path bytes = .error cause) :
      Defect H schema store occurrence (.undecodable occurrence.path cause)
  | missingCode {bytes : Bytes} {references : References} {code : Digest}
      (stored : store.node? occurrence = some bytes) (digest_eq : H bytes = occurrence.digest)
      (decoded : schema.references H occurrence.path bytes = .ok references)
      (member : code ∈ references.codes) (absent : store.code? code = none) :
      Defect H schema store occurrence (.missingCode code)
  | corruptCode {bytes blob : Bytes} {references : References} {code : Digest}
      (stored : store.node? occurrence = some bytes) (digest_eq : H bytes = occurrence.digest)
      (decoded : schema.references H occurrence.path bytes = .ok references)
      (member : code ∈ references.codes) (found : store.code? code = some blob)
      (digest_ne : H blob ≠ code) :
      Defect H schema store occurrence (.corruptCode code)

theorem whole_iff_intact :
    Whole H schema store occurrence ↔ Intact H schema store occurrence := by
  constructor
  · rintro ⟨references, read, codes⟩
    obtain ⟨bytes, stored, digest_eq, decoded⟩ := readReferences_eq_ok_iff.mp read
    exact ⟨bytes, references, stored, digest_eq, decoded, codes⟩
  · rintro ⟨bytes, references, stored, digest_eq, decoded, codes⟩
    exact ⟨references, readReferences_eq_ok_iff.mpr ⟨bytes, stored, digest_eq, decoded⟩, codes⟩

section errors

theorem Defect.of_readReferences
    (failed : store.readReferences H schema occurrence = .error error) :
    Defect H schema store occurrence error := by
  unfold readReferences readNode at failed
  cases stored : store.node? occurrence with
  | none =>
      rw [stored] at failed
      obtain rfl := Except.error.inj failed
      exact .missingNode stored
  | some bytes =>
      by_cases digest_eq : H bytes = occurrence.digest
      · simp only [stored, digest_eq, if_true, bind, Except.bind] at failed
        cases decoded : schema.references H occurrence.path bytes with
        | ok references => simp [decoded] at failed
        | error cause =>
            rw [decoded] at failed
            obtain rfl := Except.error.inj failed
            exact .undecodable stored digest_eq decoded
      · simp only [stored, digest_eq, if_false, bind, Except.bind] at failed
        obtain rfl := Except.error.inj failed
        exact .corruptNode stored digest_eq

private theorem verifyCodes_eq_error {codes : List Digest}
    (failed : store.verifyCodes H codes = .error error) :
    ∃ code ∈ codes, store.readCode H code = .error error := by
  induction codes with
  | nil => cases failed
  | cons code codes ih =>
      rw [verifyCodes, bind_eq_error] at failed
      rcases failed with failed | ⟨_, -, failed⟩
      · exact ⟨code, List.mem_cons_self, failed⟩
      · obtain ⟨other, member, failed⟩ := ih failed
        exact ⟨other, List.mem_cons_of_mem _ member, failed⟩

theorem Defect.of_verifyCodes {references : References}
    (read : store.readReferences H schema occurrence = .ok references)
    (failed : store.verifyCodes H references.codes = .error error) :
    Defect H schema store occurrence error := by
  obtain ⟨bytes, stored, digest_eq, decoded⟩ := readReferences_eq_ok_iff.mp read
  obtain ⟨code, member, failed⟩ := verifyCodes_eq_error failed
  unfold readCode at failed
  cases found : store.code? code with
  | none =>
      rw [found] at failed
      obtain rfl := Except.error.inj failed
      exact .missingCode stored digest_eq decoded member found
  | some blob =>
      rw [found] at failed
      by_cases digest_eq' : H blob = code
      · simp [digest_eq'] at failed
      · simp only [digest_eq', if_false] at failed
        obtain rfl := Except.error.inj failed
        exact .corruptCode stored digest_eq decoded member found digest_eq'

private theorem exists_of_foldrM_error {nodes : List Occurrence}
    (failed : nodes.foldrM (fun node count => do
      return count + (← store.verifyWithin H schema height node)) 1 = .error error) :
    ∃ node ∈ nodes, store.verifyWithin H schema height node = .error error := by
  induction nodes with
  | nil => cases failed
  | cons node nodes ih =>
      rw [List.foldrM_cons, bind_eq_error] at failed
      rcases failed with failed | ⟨rest, -, failed⟩
      · obtain ⟨other, member, failed⟩ := ih failed
        exact ⟨other, List.mem_cons_of_mem _ member, failed⟩
      · rcases bind_eq_error.mp failed with failed | ⟨below, -, failed⟩
        · exact ⟨node, List.mem_cons_self, failed⟩
        · cases failed

/-- A check that fails has met a defect, unless it did not go deep enough. -/
theorem defect_or_descends
    (failed : store.verifyWithin H schema (height + 1) occurrence = .error error) :
    (∃ lower, occurrence.digest ≠ emptyRoot H ∧
      ReflTransGen (store.Reads H schema) occurrence lower ∧ Defect H schema store lower error) ∨
    Descends (store.Reads H schema) height occurrence := by
  induction height generalizing occurrence with
  | zero => exact .inr trivial
  | succ height ih =>
      by_cases digest_eq : occurrence.digest = emptyRoot H
      · rw [verifyWithin, if_pos digest_eq] at failed
        cases failed
      · rw [verifyWithin, if_neg digest_eq, bind_eq_error] at failed
        rcases failed with failed | ⟨references, read, failed⟩
        · exact .inl ⟨occurrence, digest_eq, .refl, .of_readReferences failed⟩
        · rcases bind_eq_error.mp failed with failed | ⟨_, -, failed⟩
          · exact .inl ⟨occurrence, digest_eq, .refl, .of_verifyCodes read failed⟩
          · obtain ⟨node, member, failed⟩ := exists_of_foldrM_error failed
            have node_ne : node.digest ≠ emptyRoot H := by
              intro node_eq
              rw [verifyWithin, if_pos node_eq] at failed
              cases failed
            have reads : store.Reads H schema occurrence node := ⟨references, read, member, node_ne⟩
            rcases ih failed with ⟨lower, -, leads, defect⟩ | descends
            · exact .inl ⟨lower, digest_eq, .head reads leads, defect⟩
            · exact .inr ⟨node, reads, descends⟩

end errors

section reach

theorem reads_of_follows (whole : Whole H schema store upper)
    (follows : store.Follows H schema upper lower) : store.Reads H schema upper lower := by
  obtain ⟨references, read, -⟩ := whole
  obtain ⟨bytes, references', stored, decoded, member, digest_ne⟩ := follows
  obtain ⟨bytes', stored', -, decoded'⟩ := readReferences_eq_ok_iff.mp read
  obtain rfl := Option.some.inj (stored.symm.trans stored')
  obtain rfl := Except.ok.inj (decoded.symm.trans decoded')
  exact ⟨references', read, member, digest_ne⟩

theorem follows_of_leadsTo (leads : ReflTransGen (store.Reads H schema) upper lower) :
    ReflTransGen (store.Follows H schema) upper lower :=
  ReflTransGen.mono (fun _ _ => Reads.follows) _ _ leads

theorem leadsTo_of_follows
    (whole : ∀ {lower}, ReflTransGen (store.Reads H schema) upper lower →
      Whole H schema store lower)
    (leads : ReflTransGen (store.Follows H schema) upper lower) :
    ReflTransGen (store.Reads H schema) upper lower := by
  induction leads with
  | refl => exact .refl
  | tail _ follows ih => exact ih.tail (reads_of_follows (whole ih) follows)

end reach

section visits

variable {visited : List Occurrence}

theorem Visits.reach_eq (visits : Visits H schema store occurrence visited)
    (whole : ∀ lower ∈ visited, Whole H schema store lower) :
    store.reach H schema occurrence = {lower | lower ∈ visited} := by
  ext lower
  constructor
  · rintro ⟨digest_ne, leads⟩
    refine visits.mem_iff.mpr ⟨digest_ne, leadsTo_of_follows ?_ leads⟩
    exact fun leads => whole _ (visits.mem_iff.mpr ⟨digest_ne, leads⟩)
  · intro member
    obtain ⟨digest_ne, leads⟩ := visits.mem_iff.mp member
    exact ⟨digest_ne, follows_of_leadsTo leads⟩

theorem Visits.ncard_reach (visits : Visits H schema store occurrence visited)
    (whole : ∀ lower ∈ visited, Whole H schema store lower) :
    (store.reach H schema occurrence).ncard = visited.length := by
  rw [visits.reach_eq whole, ← List.coe_toFinset, Set.ncard_coe_finset,
    List.toFinset_card_of_nodup visits.nodup]

theorem Visits.length_le (visits : Visits H schema store occurrence visited)
    (whole : ∀ lower ∈ visited, Whole H schema store lower) (keying_eq : store.keying = .byPath) :
    visited.length ≤ store.nodes.size := by
  rw [← Std.TreeMap.length_keys]
  refine (List.subperm_of_subset visits.nodup ?_).length_le
  intro lower member
  obtain ⟨references, read, -⟩ := whole lower member
  obtain ⟨bytes, stored, -⟩ := readReferences_eq_ok_iff.mp read
  simpa only [key, keying_eq] using key_mem_keys stored

theorem exists_visits_of_verifyAt (verified : store.verifyAt H schema occurrence = .ok count) :
    ∃ visited, count = visited.length ∧ Visits H schema store occurrence visited ∧
      ∀ lower ∈ visited, Whole H schema store lower := by
  obtain ⟨visited, count_eq, visits⟩ := visits_of_verifyWithin verified
  refine ⟨visited, count_eq, visits, ?_⟩
  intro lower member
  obtain ⟨digest_ne, leads⟩ := visits.mem_iff.mp member
  exact whole_of_verifyWithin verified digest_ne leads

theorem finite_reach_of_verifyAt (verified : store.verifyAt H schema occurrence = .ok count) :
    (store.reach H schema occurrence).Finite := by
  obtain ⟨visited, -, visits, whole⟩ := exists_visits_of_verifyAt verified
  rw [visits.reach_eq whole]
  exact visited.finite_toSet

theorem not_descends_maxHeight_of_finite (finite : (store.reach H schema occurrence).Finite)
    (digest_ne : occurrence.digest ≠ emptyRoot H) :
    ¬ Descends (store.Reads H schema) (3 * store.nodes.size + 2) occurrence :=
  not_descends_of_finite finite digest_ne (by omega)

theorem exists_verifyAt_eq_ok (finite : (store.reach H schema occurrence).Finite)
    (whole : ∀ lower ∈ store.reach H schema occurrence, Whole H schema store lower) :
    ∃ count, store.verifyAt H schema occurrence = .ok count := by
  by_cases digest_eq : occurrence.digest = emptyRoot H
  · exact ⟨0, if_pos digest_eq⟩
  · obtain ⟨visited, verified, -⟩ :=
      verifyWithin_visits (not_descends_maxHeight_of_finite finite digest_eq)
        fun digest_ne leads => whole _ ⟨digest_ne, follows_of_leadsTo leads⟩
    exact ⟨visited.length, verified⟩

end visits

/-- The outcome of a check tells whether all that is met from a node is held. -/
structure ExactCheck (H : Hash) (schema : Schema) (store : Store) (occurrence : Occurrence) :
    Prop where
  finite : (store.reach H schema occurrence).Finite
  eq_ok_iff : ∀ count, store.verifyAt H schema occurrence = .ok count ↔
    (∀ lower ∈ store.reach H schema occurrence, Intact H schema store lower) ∧
      count = (store.reach H schema occurrence).ncard
  defect : ∀ error, store.verifyAt H schema occurrence = .error error →
    ∃ lower ∈ store.reach H schema occurrence, Defect H schema store lower error
  injOn_path : Set.InjOn Occurrence.path (store.reach H schema occurrence)
  le_size : store.keying = .byPath → ∀ count, store.verifyAt H schema occurrence = .ok count →
    count ≤ store.nodes.size

/-- A check is exact, in whatever state the store is, if finitely many nodes are met at all. -/
theorem exactCheck_of_finite
    (bounded : store.keying = .byPath ∨ (store.reach H schema occurrence).Finite) :
    ExactCheck H schema store occurrence := by
  have finite : (store.reach H schema occurrence).Finite :=
    bounded.elim (fun keying_eq => finite_reach_of_byPath keying_eq H schema occurrence) id
  refine ⟨finite, ?_, ?_, injOn_path_reach H schema store occurrence, ?_⟩
  · intro count
    constructor
    · intro verified
      obtain ⟨visited, rfl, visits, whole⟩ := exists_visits_of_verifyAt verified
      refine ⟨?_, (visits.ncard_reach whole).symm⟩
      rw [visits.reach_eq whole]
      exact fun lower member => whole_iff_intact.mp (whole lower member)
    · rintro ⟨intact, rfl⟩
      obtain ⟨count, verified⟩ :=
        exists_verifyAt_eq_ok finite fun lower member => whole_iff_intact.mpr (intact lower member)
      obtain ⟨visited, rfl, visits, whole⟩ := exists_visits_of_verifyAt verified
      rw [verified, visits.ncard_reach whole]
  · intro error failed
    by_cases digest_eq : occurrence.digest = emptyRoot H
    · have verified : store.verifyAt H schema occurrence = .ok 0 := if_pos digest_eq
      rw [verified] at failed
      cases failed
    · obtain ⟨lower, -, leads, defect⟩ := (defect_or_descends failed).resolve_right
        (not_descends_maxHeight_of_finite finite digest_eq)
      exact ⟨lower, ⟨digest_eq, follows_of_leadsTo leads⟩, defect⟩
  · intro keying_eq count verified
    obtain ⟨visited, rfl, visits, whole⟩ := exists_visits_of_verifyAt verified
    exact visits.length_le whole keying_eq

end Store

namespace Session.SharedLeaf

/-- The tries of the accounts are held, with the code or without it. -/
def held (keying : Keying) (codes : List Put) : Store :=
  (Store.empty keying).putAll
    (accounts.puts quickHash .root ++ storage.puts quickHash (.account (key 0xa0)) ++ codes)

/-- The six nodes of the accounts are met at nine places, and code that is not held is noticed. -/
theorem exactCheck_held :
    ((held .byDigest [.code contract.codeHash code]).nodes.size = 6 ∧
      ((held .byDigest [.code contract.codeHash code]).reach quickHash .accounts
        ⟨.root, accounts.root⟩).ncard = 9) ∧
    ∃ lower ∈ (held .byPath []).reach quickHash .accounts ⟨.root, accounts.root⟩,
      Store.Defect quickHash .accounts (held .byPath []) lower (.missingCode contract.codeHash) := by
  obtain ⟨size_eq, verified, failed⟩ :
      (held .byDigest [.code contract.codeHash code]).nodes.size = 6 ∧
      (held .byDigest [.code contract.codeHash code]).verify quickHash .accounts accounts.root =
        .ok 9 ∧
      (held .byPath []).verify quickHash .accounts accounts.root =
        .error (.missingCode contract.codeHash) := by
    decide +kernel
  have exact_byDigest := Store.exactCheck_of_finite (.inr (Store.finite_reach_of_verifyAt verified))
  have exact_byPath :
      Store.ExactCheck quickHash .accounts (held .byPath []) ⟨.root, accounts.root⟩ :=
    Store.exactCheck_of_finite (.inl rfl)
  exact ⟨⟨size_eq, ((exact_byDigest.eq_ok_iff 9).mp verified).2.symm⟩,
    exact_byPath.defect _ failed⟩

end Session.SharedLeaf

end TrieSync
