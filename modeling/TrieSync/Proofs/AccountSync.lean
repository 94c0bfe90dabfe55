import TrieSync.Hash.Quick
import TrieSync.Proofs.Inspection
import TrieSync.Proofs.Ranking
import TrieSync.Trie

namespace TrieSync

open Scheduler

namespace Session

variable {H : Hash} {known : Digest → Bytes → Prop} {root : Digest} {wanted : Digest → Prop}
  {session final : Session} {actions : List Action} {occurrence : Occurrence} {bytes : Bytes}

/-- Every node of the root trie that was not put at its own place is complete there. -/
def Settled (H : Hash) (known : Digest → Bytes → Prop) (root : Digest) (session : Session) : Prop :=
  ∀ occurrence bytes, Reachable H .accounts known root occurrence →
    occurrence.path.owner = .root → occurrence ∉ session.putNodes →
      known occurrence.digest bytes →
        Backed H .accounts (fun node => session.store.hasNode node = true)
          (fun code => session.store.hasCode code = true) occurrence bytes

/-- The nodes of the root trie can be decoded at their places, and none of them is a node of a
sub-trie as well. -/
structure Separate (H : Hash) (known : Digest → Bytes → Prop) (root : Digest) : Prop where
  decoded : ∀ {occurrence bytes}, Reachable H .accounts known root occurrence →
    occurrence.path.owner = .root → known occurrence.digest bytes →
      ∃ references, Schema.references .accounts H occurrence.path bytes = .ok references
  digest_ne : ∀ {left right}, Reachable H .accounts known root left →
    Reachable H .accounts known root right → left.path.owner = .root →
      right.path.owner ≠ .root → left.digest ≠ right.digest

private theorem backed_of_mem_putNodes
    (tracked : Tracked H .accounts .plain known root wanted (.empty .byDigest) session)
    (functional : Functional known) (member : occurrence ∈ session.putNodes)
    (bytes_known : known occurrence.digest bytes) :
    Backed H .accounts (fun node => session.store.hasNode node = true)
      (fun code => session.store.hasCode code = true) occurrence bytes := by
  obtain ⟨_, put_mem⟩ := Put.mem_occurrences_iff.mp member
  obtain ⟨-, put_known⟩ := tracked.progress.written _ put_mem
  obtain rfl := functional _ _ _ bytes_known put_known
  exact tracked.guarded.written put_mem

private theorem Settled.backed (settled : Settled H known root session)
    (tracked : Tracked H .accounts .plain known root wanted (.empty .byDigest) session)
    (functional : Functional known) (covering : Covering H (.empty .byDigest) known)
    (reachable : Reachable H .accounts known root occurrence)
    (stored : session.store.node? occurrence = some bytes) :
    Backed H .accounts (fun node => session.store.hasNode node = true)
      (fun code => session.store.hasCode code = true) occurrence bytes := by
  have bytes_known := tracked.known_of_stored covering stored
  by_cases owner_eq : occurrence.path.owner = .root
  · by_cases member : occurrence ∈ session.putNodes
    · exact backed_of_mem_putNodes tracked functional member bytes_known
    · exact settled occurrence bytes reachable owner_eq member bytes_known
  · exact (tracked.guarded.closed stored).of_plain owner_eq

/-- A node of the root trie that is stored was put at some place of the root trie. -/
private theorem Separate.backed (separate : Separate H known root)
    (tracked : Tracked H .accounts .plain known root wanted (.empty .byDigest) session)
    (functional : Functional known) (covering : Covering H (.empty .byDigest) known)
    (reachable : Reachable H .accounts known root occurrence)
    (owner_eq : occurrence.path.owner = .root)
    (stored : session.store.node? occurrence = some bytes) :
    Backed H .accounts (fun node => session.store.hasNode node = true)
      (fun code => session.store.hasCode code = true) occurrence bytes := by
  have bytes_known := tracked.known_of_stored covering stored
  have has : session.store.hasNode occurrence = true := by
    rw [Store.hasNode_eq_isSome_node?, stored]
    rfl
  obtain ⟨other, member, digest_eq⟩ :=
    tracked.accounted.exists_put (Store.hasNode_empty .byDigest) has
  have other_eq : other.path.owner = .root := by
    by_contra other_ne
    exact separate.digest_ne reachable (tracked.reachable_of_mem_putNodes member) owner_eq other_ne
      digest_eq.symm
  have backed := backed_of_mem_putNodes tracked functional member (digest_eq ▸ bytes_known)
  refine backed.moved digest_eq ?_ ?_
  · intro references decoded
    obtain ⟨moved, moved_eq⟩ := separate.decoded reachable owner_eq bytes_known
    exact ⟨moved, moved_eq, Schema.references_moved other_eq owner_eq decoded moved_eq⟩
  · intro left right same held
    have keying_eq : session.store.keying = .byDigest := tracked.accounted.keying_eq
    simpa only [Store.hasNode, Store.key, keying_eq, same] using held

private theorem verify_of_backed {rank : Digest → Nat} {count : Nat}
    (tracked : Tracked H .accounts .plain known root wanted (.empty .byDigest) session)
    (functional : Functional known) (covering : Covering H (.empty .byDigest) known)
    (coherent : Coherent [] session.scheduler) (isDone : session.scheduler.isDone = true)
    (ranked : Ranked H known session.putNodes session.scheduler rank count)
    (backed : ∀ {occurrence bytes}, Reachable H .accounts known root occurrence →
      session.store.node? occurrence = some bytes →
        Backed H .accounts (fun node => session.store.hasNode node = true)
          (fun code => session.store.hasCode code = true) occurrence bytes) :
    ∃ count, session.store.verify H .accounts root = .ok count := by
  have shallow : ¬ Descends (session.store.Reads H .accounts)
      (3 * session.store.nodes.size + 2) ⟨.root, root⟩ :=
    tracked.not_descends covering (Store.hasNode_empty .byDigest) ranked (by omega) _
  obtain ⟨visited, verified, -⟩ :=
    tracked.verify_visits covering (Store.hasCode_empty .byDigest) shallow fun reachable => by
      obtain ⟨bytes, stored, -⟩ :=
        tracked.stored_of_reachable functional covering coherent isDone backed reachable
      exact ⟨bytes, stored, backed reachable stored⟩
  exact ⟨_, verified⟩

/-- The check of a store that a scheduler filled succeeds exactly if the nodes of the root trie that
were stored as nodes of other places are complete at their own. So it does whenever no node of the
root trie is a node of a storage trie. -/
theorem completes_verify_iff
    (completes : Completes H .accounts (.empty .byDigest) root actions final)
    (collisionless : Collisionless H (.empty .byDigest) actions) :
    ((∃ count, final.store.verify H .accounts root = .ok count) ↔
      Settled H (Preimage H (.empty .byDigest) actions) root final) ∧
    (Separate H (Preimage H (.empty .byDigest) actions) root →
      ∃ count, final.store.verify H .accounts root = .ok count) := by
  have functional := collisionless.functional
  have covering := covering_preimage H (.empty .byDigest) actions
  have kept : Coherent [] final.scheduler ∧
      Tracked H .accounts .plain (Preimage H (.empty .byDigest) actions) root (fun _ => True)
        (.empty .byDigest) final ∧
      ∃ rank count, Ranked H (Preimage H (.empty .byDigest) actions) final.putNodes final.scheduler
        rank count :=
    completes.ranked (.inr rfl) (Store.closed_empty H .plain .byDigest) (.inr rfl) functional covering
      (Store.hasNode_empty .byDigest) (fun _ => trivial) (fun _ => trivial)
      (preimage_answered H (.empty .byDigest) (List.Subset.refl actions))
  obtain ⟨coherent, tracked, rank, count, ranked⟩ := kept
  have verify_of := verify_of_backed tracked functional covering coherent completes.isDone ranked
  refine ⟨⟨?_, ?_⟩, ?_⟩
  · rintro ⟨count, verified⟩ occurrence bytes reachable - - bytes_known
    obtain ⟨stored_bytes, stored, backed⟩ :=
      tracked.backed_of_verify functional covering verified reachable
    obtain rfl := functional _ _ _ bytes_known (tracked.known_of_stored covering stored)
    exact backed
  · intro settled
    exact verify_of (settled.backed tracked functional covering)
  · intro separate
    refine verify_of fun {occurrence bytes} reachable stored => ?_
    by_cases owner_eq : occurrence.path.owner = .root
    · exact separate.backed tracked functional covering reachable owner_eq stored
    · exact (tracked.guarded.closed stored).of_plain owner_eq

/-! Two accounts with the same code are under keys of which all but the first nibbles are equal, so
that their leaves are equal. A third account holds the same bytes as values in its storage. -/

namespace SharedLeaf

def key (first : UInt8) : Digest where
  bytes := first :: List.replicate 31 0x55
  length_bytes := rfl

def code : Bytes := [0xc0, 0xde]

def contract : Account where
  nonce := 1
  balance := 2
  storageRoot := emptyRoot quickHash
  codeHash := quickHash code

def storage : Trie :=
  .ofMap quickHash (.ofList [(key 0xc1, contract.encode), (key 0xc3, contract.encode)])

def holder : Account where
  nonce := 3
  balance := 4
  storageRoot := storage.root
  codeHash := emptyCode quickHash

def accounts : Trie :=
  .ofMap quickHash (.ofList
    [(key 0xa0, holder.encode), (key 0xb1, contract.encode), (key 0xb2, contract.encode)])

/-- The node of a trie at a place is asked for and answered. -/
def answer (trie : Trie) (owner : Owner) (place : Nibbles) : List Action :=
  (trie.nodes.filter fun placed => placed.place = place).flatMap fun placed =>
    [.call (.missing 0), .call (.processNode ⟨owner, place⟩ placed.node.encode)]

/-- The storage trie is written before the same leaf is met in the root trie. -/
def early : List Action :=
  answer accounts .root [] ++ answer accounts .root [0xa] ++
    answer storage (.account (key 0xa0)) [] ++ answer storage (.account (key 0xa0)) [0xc] ++
    answer storage (.account (key 0xa0)) [0xc, 1] ++ [.commit 0] ++
    answer accounts .root [0xb] ++ [.commit 0]

/-- The leaf is met in the root trie first. -/
def late : List Action :=
  answer accounts .root [] ++ answer accounts .root [0xb] ++ answer accounts .root [0xb, 1] ++
    answer accounts .root [0xa] ++ answer storage (.account (key 0xa0)) [] ++
    answer storage (.account (key 0xa0)) [0xc] ++
    [.call (.missing 0), .call (.processCode contract.codeHash code), .commit 0]

private theorem early_run : Collisionless quickHash (.empty .byDigest) early ∧
    ∃ final, Completes quickHash .accounts (.empty .byDigest) accounts.root early final ∧
      final.store.verify quickHash .accounts accounts.root =
        .error (.missingCode contract.codeHash) := by
  obtain ⟨distinct, ran⟩ :
      (∀ left ∈ early.filterMap Action.answer?, ∀ right ∈ early.filterMap Action.answer?,
        quickHash left = quickHash right → left = right) ∧
      (runOfRoot quickHash .accounts (.empty .byDigest) accounts.root early).map
        (fun session => (session.scheduler.isDone,
          session.store.verify quickHash .accounts accounts.root)) =
        .ok (true, .error (.missingCode contract.codeHash)) := by
    decide +kernel
  exact ⟨collisionless_empty .byDigest distinct, exists_completes (by simp [early, answer]) ran⟩

private theorem late_run : Collisionless quickHash (.empty .byDigest) late ∧
    ∃ final, Completes quickHash .accounts (.empty .byDigest) accounts.root late final ∧
      final.store.verify quickHash .accounts accounts.root = .ok 9 := by
  obtain ⟨distinct, ran⟩ :
      (∀ left ∈ late.filterMap Action.answer?, ∀ right ∈ late.filterMap Action.answer?,
        quickHash left = quickHash right → left = right) ∧
      (runOfRoot quickHash .accounts (.empty .byDigest) accounts.root late).map
        (fun session => (session.scheduler.isDone,
          session.store.verify quickHash .accounts accounts.root)) = .ok (true, .ok 9) := by
    decide +kernel
  exact ⟨collisionless_empty .byDigest distinct, exists_completes (by simp [late, answer]) ran⟩

/-- A scheduler that is done has not asked for the code of accounts in the root trie. -/
theorem verify_early_missingCode :
    ∃ final, Completes quickHash .accounts (.empty .byDigest) accounts.root early final ∧
      final.store.verify quickHash .accounts accounts.root =
        .error (.missingCode contract.codeHash) :=
  early_run.2

/-- In one order of answers a leaf of the root trie is not complete at its place, in another it
is. -/
theorem completes_verify_iff_sharedLeaf :
    (∃ final, Completes quickHash .accounts (.empty .byDigest) accounts.root early final ∧
      ¬ Settled quickHash (Preimage quickHash (.empty .byDigest) early) accounts.root final ∧
      ¬ Separate quickHash (Preimage quickHash (.empty .byDigest) early) accounts.root) ∧
    ∃ final, Completes quickHash .accounts (.empty .byDigest) accounts.root late final ∧
      Settled quickHash (Preimage quickHash (.empty .byDigest) late) accounts.root final := by
  constructor
  · obtain ⟨collisionless, final, completes, failed⟩ := early_run
    obtain ⟨verify_iff, verify_of_separate⟩ := completes_verify_iff completes collisionless
    have unverified :
        ¬ ∃ count, final.store.verify quickHash .accounts accounts.root = .ok count := by
      simp [failed]
    exact ⟨final, completes, fun settled => unverified (verify_iff.mpr settled),
      fun separate => unverified (verify_of_separate separate)⟩
  · obtain ⟨collisionless, final, completes, verified⟩ := late_run
    exact ⟨final, completes, (completes_verify_iff completes collisionless).1.mp ⟨9, verified⟩⟩

end SharedLeaf

end Session

end TrieSync
