import TrieSync.Store.Lookup

/-!
The loop that looks up a key. The key is not cut on the way down: the nibbles that were taken are
counted off in it. Nothing is returned if more nibbles are counted off than there are, or if the
loop does not end in time.
-/

namespace TrieSync

namespace Store

/-- Look up a key from a node on to which the nibbles taken so far lead, in at most the given number
of rounds. -/
def lookupWithin? (store : Store) (H : Hash) (owner : Owner) (key : Nibbles) :
    (rounds : Nat) → (taken : Nibbles) → Digest → Option Lookup
  | 0, _, _ => none
  | rounds + 1, taken, digest => do
      let occurrence : Occurrence := ⟨⟨owner, taken⟩, digest⟩
      if digest = emptyRoot H then
        return .absent
      let lookup ←
        match store.readNode H occurrence with
        | .error error => some (.failed error)
        | .ok bytes =>
            match Node.decode bytes with
            | .error cause => some (.failed (.undecodable occurrence.path (.node cause)))
            | .ok node => do
                let rest ← key.slice? taken.length key.length
                match node with
                | .empty => some .absent
                | .leaf suffix value =>
                    some (if suffix = rest then .found (some value) else .absent)
                | .extension suffix child =>
                    if suffix <+: rest then
                      lookupWithin? store H owner key rounds (taken ++ suffix) child
                    else
                      some .absent
                | .branch children value =>
                    match rest.head? with
                    | none => some (.found value)
                    | some nibble =>
                        match children.get nibble with
                        | none => some .absent
                        | some child => do
                            let taken ← taken.push? nibble
                            lookupWithin? store H owner key rounds taken child
      return .after occurrence lookup

/-- Look up a key in the trie of an owner, in at most the given number of rounds. -/
def lookup? (store : Store) (H : Hash) (owner : Owner) (root key : Digest) (rounds : Nat) :
    Option Lookup :=
  store.lookupWithin? H owner key.nibbles rounds [] root

end Store

end TrieSync
