import TrieSync.Hash.Blake3
import TrieSync.Ancestor
import TrieSync.Proofs.Coherence
import TrieSync.Proofs.Commitment
import TrieSync.Proofs.CrashConsistency
import TrieSync.Proofs.Delta
import TrieSync.Proofs.Displacement
import TrieSync.Proofs.FirstRequests
import TrieSync.Proofs.Integrity
import TrieSync.Proofs.Liveness
import TrieSync.Proofs.OrderInvariance
import TrieSync.Proofs.Pruning
import TrieSync.Proofs.Synchronization
import TrieSync.Proofs.UniqueAddressing
import TrieSync.Store.Lookup
import TrieSync.Sync.Exchange
import TrieSync.Proofs.CanonicalCoding
import TrieSync.Proofs.Truncation
import TrieSync.Proofs.Recurrence
import TrieSync.Proofs.ExactCheck
import TrieSync.Proofs.Shape
import TrieSync.Proofs.Slicing
import TrieSync.Proofs.CanonicalTrie
import TrieSync.Proofs.AncestorSearch
import TrieSync.Proofs.Descent
import TrieSync.Proofs.Retrieval
import TrieSync.Proofs.WalkOrder
import TrieSync.Proofs.AccountReferences
import TrieSync.Proofs.Keyings
import TrieSync.Proofs.Termination
import TrieSync.Proofs.Undisputed
import TrieSync.Proofs.Indices
