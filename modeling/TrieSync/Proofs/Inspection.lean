import TrieSync.Proofs.Completion
import TrieSync.Proofs.Verification

namespace TrieSync

open Relation
open Scheduler

namespace Session

variable {H : Hash} {schema kept : Schema} {known : Digest → Bytes → Prop} {root : Digest}
  {wanted : Digest → Prop} {start : Store} {session : Session} {occurrence lower : Occurrence}
  {bytes : Bytes}

theorem Tracked.reachable_of_reads
    (h : Tracked H schema kept known root wanted start session) (covering : Covering H start known)
    (reachable : Reachable H schema known root occurrence)
    (leads : ReflTransGen (session.store.Reads H schema) occurrence lower) :
    Reachable H schema known root lower := by
  induction leads with
  | refl => exact reachable
  | tail _ reads ih =>
      obtain ⟨references, read, member, digest_ne⟩ := reads
      obtain ⟨bytes, stored, -, decoded⟩ := Store.readReferences_eq_ok_iff.mp read
      exact ih.tail ⟨bytes, references, h.known_of_stored covering stored, decoded, member, digest_ne⟩

theorem reads_of_reachable (functional : Functional known)
    (stored : ∀ {occurrence}, Reachable H schema known root occurrence →
      ReflTransGen (session.store.Reads H schema) ⟨.root, root⟩ occurrence →
        ∃ bytes, session.store.node? occurrence = some bytes ∧ H bytes = occurrence.digest ∧
          known occurrence.digest bytes)
    (reachable : Reachable H schema known root occurrence) :
    ReflTransGen (session.store.Reads H schema) ⟨.root, root⟩ occurrence := by
  obtain ⟨digest_ne, leads⟩ := reachable
  induction leads with
  | refl => exact .refl
  | @tail upper lower leads_to leads ih =>
      obtain ⟨bytes, references, bytes_known, decoded, member, lower_ne⟩ := leads
      obtain ⟨bytes', upper_stored, digest_eq, bytes_known'⟩ := stored ⟨digest_ne, leads_to⟩ ih
      obtain rfl := functional _ _ _ bytes_known bytes_known'
      refine ih.tail ⟨references, ?_, member, lower_ne⟩
      exact Store.readReferences_eq_ok_iff.mpr ⟨bytes, upper_stored, digest_eq, decoded⟩

theorem Tracked.whole_of_backed (h : Tracked H schema kept known root wanted start session)
    (covering : Covering H start known) (codeless : ∀ digest, start.hasCode digest = false)
    (stored : session.store.node? occurrence = some bytes)
    (backed : Backed H schema (fun node => session.store.hasNode node = true)
      (fun code => session.store.hasCode code = true) occurrence bytes) :
    session.store.Whole H schema occurrence := by
  obtain ⟨digest_eq, references, decoded, -, codes⟩ := backed
  refine ⟨references, Store.readReferences_eq_ok_iff.mpr ⟨bytes, stored, digest_eq, decoded⟩, ?_⟩
  intro code member
  have has := codes code member
  rw [Store.hasCode_eq_isSome_code?] at has
  obtain ⟨content, code_stored⟩ := Option.isSome_iff_exists.mp has
  refine ⟨content, code_stored, ?_⟩
  rcases h.progress.grown.codes code_stored with held | ⟨-, -, content_known⟩
  · have absent := codeless code
    simp [Store.hasCode_eq_isSome_code?, Store.code?, held] at absent
  · exact covering.digest_eq content_known

theorem Tracked.verify_visits (h : Tracked H schema kept known root wanted start session)
    (covering : Covering H start known) (codeless : ∀ digest, start.hasCode digest = false)
    (shallow : ¬ Descends (session.store.Reads H schema) (3 * session.store.nodes.size + 2)
      ⟨.root, root⟩)
    (backed : ∀ {occurrence}, Reachable H schema known root occurrence →
      ∃ bytes, session.store.node? occurrence = some bytes ∧
        Backed H schema (fun node => session.store.hasNode node = true)
          (fun code => session.store.hasCode code = true) occurrence bytes) :
    ∃ visited, session.store.verify H schema root = .ok visited.length ∧
      session.store.Visits H schema ⟨.root, root⟩ visited := by
  refine Store.verifyWithin_visits shallow ?_
  intro lower digest_ne leads
  obtain ⟨bytes, stored, backed⟩ := backed (h.reachable_of_reads covering ⟨digest_ne, .refl⟩ leads)
  exact h.whole_of_backed covering codeless stored backed

theorem Tracked.backed_of_verify (h : Tracked H schema kept known root wanted start session)
    (functional : Functional known) (covering : Covering H start known) {count : Nat}
    (verified : session.store.verify H schema root = .ok count)
    (reachable : Reachable H schema known root occurrence) :
    ∃ bytes, session.store.node? occurrence = some bytes ∧
      Backed H schema (fun node => session.store.hasNode node = true)
        (fun code => session.store.hasCode code = true) occurrence bytes := by
  have whole {lower : Occurrence}
      (leads : ReflTransGen (session.store.Reads H schema) ⟨.root, root⟩ lower) :
      session.store.Whole H schema lower :=
    Store.whole_of_verifyWithin verified reachable.1 leads
  have leads : ReflTransGen (session.store.Reads H schema) ⟨.root, root⟩ occurrence := by
    refine reads_of_reachable functional ?_ reachable
    intro other _ leads
    obtain ⟨references, read, -⟩ := whole leads
    obtain ⟨bytes, stored, digest_eq, -⟩ := Store.readReferences_eq_ok_iff.mp read
    exact ⟨bytes, stored, digest_eq, h.known_of_stored covering stored⟩
  obtain ⟨references, read, codes⟩ := whole leads
  obtain ⟨bytes, stored, digest_eq, decoded⟩ := Store.readReferences_eq_ok_iff.mp read
  refine ⟨bytes, stored, digest_eq, references, decoded, ?_, ?_⟩
  · intro node member
    by_cases empty : node.digest = emptyRoot H
    · exact .inl empty
    · obtain ⟨_, node_read, -⟩ := whole (leads.tail ⟨references, read, member, empty⟩)
      obtain ⟨_, node_stored, -⟩ := Store.readReferences_eq_ok_iff.mp node_read
      exact .inr (by rw [Store.hasNode_eq_isSome_node?, node_stored]; rfl)
  · intro code member
    obtain ⟨_, code_stored, -⟩ := codes code member
    rw [Store.hasCode_eq_isSome_code?, code_stored]
    rfl

end Session

end TrieSync
